import ClassTree.Proofs.Code.Typed
import ClassTree.Proofs.Compile.Every
import ClassTree.Proofs.Compile.Leaves
import ClassTree.Proofs.Typing.Fold

/-!
# The code of typed expressions is typed

`Context.Backed c l`: the loader `l` has what the context `c` takes for granted, for each way in which a member is chosen.
`Block.Pushes`: the block is typed and leaves values of these types above what it found, while the local variables keep their
types. With resolved references the code of an expression pushes a value of its type (`Typed.expr_pushes`), and the code of
arguments values of the types of the parameters (`Typed.exprs_pushes`): each is widened where its own type has not the values of
the type that is expected (`Block.Pushes.assigned`).
-/

namespace ClassTree

open Gen

/-- The loader has all that types may choose in the context. -/
structure Context.Backed (c : Context) (l : Loader) : Prop where
  below : ∀ {a b}, c.registry.isSubclassOf a b = true → l.Below a b
  field : ∀ {n name f}, c.registry.findField? n name = some f → l.HasField n f.ref f.ty
  outer : ∀ {outer}, c.cls.enclosing = some outer → c.cls.isInner = true →
    l.HasField c.cls.name ⟨c.cls.name.text, outerField, (Ty.ref outer).descriptor⟩ (.ref outer)
  virtual : ∀ {n name m}, m ∈ c.registry.findMethods n name → m.isStatic = false → l.Answers n m.ref m.signature
  static : ∀ {n name m}, m ∈ c.registry.findMethods n name → m.isStatic = true → l.HasStatic m.ref m.signature
  new : ∀ {n e k}, c.registry.get? n = some e → e.isAbstract = false → k ∈ e.constructors → l.Allocates n
  constructor : ∀ {n e k}, c.registry.get? n = some e → k ∈ e.constructors →
    l.HasConstructor n (e.constructorRef k.params) ⟨e.outerTypes ++ k.params, .void⟩
  super : ∀ {n e k}, c.cls.superclass = some n → c.registry.get? n = some e → k ∈ e.constructors →
    l.Below c.cls.name n ∧ l.HasConstructor n ⟨n.text, constructorName, k.descriptor⟩ ⟨k.params, .void⟩

/-- The receiver and the visible variables are in their slots. -/
structure Context.Covers (c : Context) (L : Nat → Option Ty) (s : Scope) : Prop where
  receiver : c.isStatic = false → L 0 = some c.thisType
  slot : ∀ x v, s.lookup? x = some v → L v.slot.toNat = some v.ty

/-! ## Blocks that push values -/

section Blocks

variable (l : Loader) (cs : Constants) (ret : Ty)

/-- The block leaves values of these types above what it found, the top first. -/
def Block.Pushes (L : Nat → Option Ty) (b : Block) (ts : List Ty) : Prop :=
  ∀ st, b.Types l cs ret (some ⟨L, st⟩) (some ⟨L, ts ++ st⟩)

variable {l cs ret} {L : Nat → Option Ty} {a b : Block} {i : Instr} {ts us vs : List Ty} {s t : Ty}

/-- The rule for an instruction that does not jump. -/
theorem Block.types_one {s s' : TypeState} (h : i.Types l cs ret s s') (htarget : ∀ o, i.target? o = none) :
    (one i).Types l cs ret (some s) (some s') := .one trivial htarget h (.inr rfl)

namespace Block.Pushes

theorem empty : Block.empty.Pushes l cs ret L [] := fun _ => .empty _

theorem one (h : ∀ st, i.Types l cs ret ⟨L, st⟩ ⟨L, ts ++ st⟩) (htarget : ∀ o, i.target? o = none) :
    (Block.one i).Pushes l cs ret L ts := fun st => types_one (h st) htarget

theorem append (ha : a.Pushes l cs ret L ts) (hb : b.Pushes l cs ret L us) : (a ++ b).Pushes l cs ret L (us ++ ts) := by
  intro st
  rw [List.append_assoc]
  exact (ha st).append (hb (ts ++ st))

/-- The rule for an instruction that takes what was pushed. -/
theorem step (ha : a.Pushes l cs ret L ts) (h : ∀ st, i.Types l cs ret ⟨L, ts ++ st⟩ ⟨L, us ++ st⟩)
    (htarget : ∀ o, i.target? o = none) : (a ++ .one i).Pushes l cs ret L us :=
  fun st => (ha st).append (types_one (h st) htarget)

/-- The rule for a block that takes what was pushed. -/
theorem andThen (ha : a.Pushes l cs ret L ts)
    (h : ∀ st, b.Types l cs ret (some ⟨L, ts ++ st⟩) (some ⟨L, us ++ st⟩)) : (a ++ b).Pushes l cs ret L us :=
  fun st => (ha st).append (h st)

/-- What was pushed may be taken for values of types that have more. -/
theorem mono (ha : a.Pushes l cs ret L ts) (h : List.Forall₂ l.IsSubtype ts us) : a.Pushes l cs ret L us := by
  refine fun st => (ha st).mono ((l.types cs ret).sub_refl _) ⟨fun _ _ h => h, ?_⟩
  exact List.rel_append h (List.forall₂_same.2 fun t _ => .refl t)

theorem widenTo (ha : a.Pushes l cs ret L [s]) (h : Widening.between? s t = none → l.IsSubtype s t) :
    (ClassTree.widenTo t (a, s)).Pushes l cs ret L [t] := by
  rw [ClassTree.widenTo]
  split
  · rename_i w hw
    exact ha.step (fun st => .widen hw L st) fun _ => rfl
  · rename_i hw
    exact ha.mono (.cons (h hw) .nil)

/-- The rule for code that pushes a value of the same type on either way. -/
theorem ifElse {test yes no : Block} (htest : test.Pushes l cs ret L [.boolean]) (hyes : yes.Pushes l cs ret L ts)
    (hno : no.Pushes l cs ret L ts) : (Block.ifElse test yes no).Pushes l cs ret L ts := by
  intro st
  refine Block.Flows.ifElse (htest st) ⟨fun _ => trivial, fun w => .jumpIfFalse w L st⟩ (hyes st) (hno st)
    (fun _ => trivial) fun w s hs => ?_
  cases hs
  exact .jump w _

theorem shortCircuit (op : BinaryOp) (ha : a.Pushes l cs ret L [.boolean]) (hb : b.Pushes l cs ret L [.boolean]) :
    (ClassTree.shortCircuit op a b).Pushes l cs ret L [.boolean] := by
  unfold ClassTree.shortCircuit
  split
  · exact ha.ifElse hb (.one (fun st => .push .false L st) fun _ => rfl)
  · exact ha.ifElse (.one (fun st => .push .true L st) fun _ => rfl) hb

end Block.Pushes

end Blocks

section Instructions

variable {c : Context} {l : Loader} {cs : Constants} {ret : Ty} {L : Nat → Option Ty} {a b : Block} {s t : Ty}

/-- Where a type may stand for another without being widened, it has no values that the other has not. -/
theorem Context.Backed.isSubtype (hc : c.Backed l) (h : c.registry.isAssignable s t = true)
    (hw : Widening.between? s t = none) : l.IsSubtype s t := by
  unfold Registry.isAssignable Registry.conversionCost at h
  split at h
  · cases h
  split at h
  · rename_i heq
    rw [heq]
    exact .refl t
  split at h
  · cases hw
  · cases hw
  · cases hw
  · exact .null _
  · exact .below (hc.below h)
  · cases h

/-- Code of a value, made fit for the type that is expected. -/
theorem Block.Pushes.assigned (ha : a.Pushes l cs ret L [s]) (hc : c.Backed l) (h : c.registry.isAssignable s t = true) :
    (ClassTree.widenTo t (a, s)).Pushes l cs ret L [t] := ha.widenTo (hc.isSubtype h)

theorem Context.Covers.loadThis {scope : Scope} (hL : c.Covers L scope) (hinstance : c.isStatic = false) :
    loadThis.Pushes l cs ret L [c.thisType] := .one (fun st => .load (hL.receiver hinstance) st) fun _ => rfl

/-- The rule for an instruction that pushes a constant. -/
theorem ldc_pushes {make : Pool → Instr × Pool} (item : Item) (hmake : ∀ p, make p = Pool.instr .ldc (p.put item))
    (ht : item.ty? = some t) : Makes (fun _ => True) cs (Gen.instr make) fun b => b.Pushes l cs ret L [t] :=
  .instr item hmake trivial fun _ hi => .one (fun _ => .ldc hi ht) fun _ => rfl

theorem pushInt_pushes (n : Int32) :
    Makes (fun _ => True) cs (Gen.instr (·.pushInt n)) fun b => b.Pushes l cs ret L [.int] :=
  .pushInt trivial (fun _ => .one (fun st => .push .zero L st) fun _ => rfl)
    (fun _ => .one (fun st => .push .one L st) fun _ => rfl)
    fun _ hi => .one (fun _ => .ldc (show cs.Has _ (.int n) from hi) rfl) fun _ => rfl

theorem pushBool_pushes (x : Bool) : (pushBool x).Pushes l cs ret L [.boolean] := by
  cases x with
  | true => exact .one (fun st => .push .true L st) fun _ => rfl
  | false => exact .one (fun st => .push .false L st) fun _ => rfl

theorem pushNull_pushes : (Block.one (.push .null)).Pushes l cs ret L [.null] :=
  .one (fun st => .push .null L st) fun _ => rfl

theorem Context.literal_pushes (c : Context) (x : Literal) :
    Makes (fun _ => True) cs (c.literal x) fun b => b.Pushes l cs ret L [x.ty] := by
  cases x with
  | null => exact .pure pushNull_pushes
  | bool x => exact .pure (pushBool_pushes x)
  | int n => exact pushInt_pushes n
  | long n => exact ldc_pushes (.long n) (fun _ => rfl) rfl
  | double d => exact ldc_pushes (.double d) (fun _ => rfl) rfl
  | str x =>
    rw [Context.literal]
    split
    · exact ldc_pushes (.string x) (fun _ => rfl) rfl
    · exact .throw

/-- A variable that has values begins with one of them. -/
theorem pushDefault_pushes (ht : t.isVoid = false) :
    Makes (fun _ => True) cs (pushDefault t) fun b => b.Pushes l cs ret L [t] := by
  cases t with
  | void => cases ht
  | boolean => exact .pure (pushBool_pushes false)
  | int => exact pushInt_pushes 0
  | long => exact ldc_pushes (.long 0) (fun _ => rfl) rfl
  | double => exact ldc_pushes (.double (.zero false)) (fun _ => rfl) rfl
  | null => exact .pure pushNull_pushes
  | ref n => exact .pure (pushNull_pushes.mono (.cons (.null n) .nil))

/-- Reading a field of an object. -/
theorem getField_types {n : Name} {ref : MemberRef} (h : l.HasField n ref t) :
    Makes (fun _ => True) cs (Gen.instr (·.accessField .get ref)) fun b =>
      ∀ st, b.Types l cs ret (some ⟨L, .ref n :: st⟩) (some ⟨L, t :: st⟩) :=
  .instr (.field ref) (fun _ => rfl) trivial fun _ hi st => Block.types_one (.getField hi h L st) fun _ => rfl

/-- Storing a value in a field of an object. -/
theorem putField_types {n : Name} {ref : MemberRef} (h : l.HasField n ref t) :
    Makes (fun _ => True) cs (Gen.instr (·.accessField .put ref)) fun b =>
      ∀ st, b.Types l cs ret (some ⟨L, t :: .ref n :: st⟩) (some ⟨L, st⟩) :=
  .instr (.field ref) (fun _ => rfl) trivial fun _ hi st => Block.types_one (.putField hi h L st) fun _ => rfl

/-- A call of a static method. -/
theorem invoke_static_types (ret : Ty) (L : Nat → Option Ty) {m : MethodEntry} (h : l.HasStatic m.ref m.signature) :
    Makes (fun _ => True) cs (Typed.invoke .static m) fun b =>
      ∀ st, b.Types l cs ret (some ⟨L, m.params.reverse ++ st⟩) (some ⟨L, m.ret.pushed ++ st⟩) :=
  .instr (.method m.ref) (fun _ => rfl) trivial fun _ hi st => Block.types_one (.static hi h L st) fun _ => rfl

/-- A call of a method of an object. -/
theorem invoke_virtual_types (ret : Ty) (L : Nat → Option Ty) {n : Name} {m : MethodEntry} (h : l.Answers n m.ref m.signature) :
    Makes (fun _ => True) cs (Typed.invoke .virtual m) fun b =>
      ∀ st, b.Types l cs ret (some ⟨L, m.params.reverse ++ .ref n :: st⟩) (some ⟨L, m.ret.pushed ++ st⟩) :=
  .instr (.method m.ref) (fun _ => rfl) trivial fun _ hi st => Block.types_one (.virtual hi h L st) fun _ => rfl

/-- A call of a constructor. -/
theorem invoke_special_types (ret : Ty) (L : Nat → Option Ty) {n : Name} {ref : MemberRef} {params : List Ty}
    (h : l.HasConstructor n ref ⟨params, .void⟩) :
    Makes (fun _ => True) cs (Gen.instr (·.invoke .special ref)) fun b =>
      ∀ st, b.Types l cs ret (some ⟨L, params.reverse ++ .ref n :: st⟩) (some ⟨L, st⟩) :=
  .instr (.method ref) (fun _ => rfl) trivial fun _ hi st => Block.types_one (.special hi h L st) fun _ => rfl

end Instructions

/-! ## Operators -/

section Operators

variable {c : Context} {l : Loader} {cs : Constants} {ret : Ty} {L : Nat → Option Ty} {a b : Block} {lt rt : Ty}

/-- How types choose what an operator does that evaluates both operands: it joins texts, works on numbers, or compares. -/
theorem Context.binary_kinds {op : BinaryOp} {i : Instr} {t : BinaryTyping} (hop : op.instr? = some i)
    (h : c.binary op lt rt = .ok t) :
    t = ⟨none, .string, true⟩ ∨
    (∃ p, lt.promote rt = some p ∧ t.operand = some p ∧ t.isConcat = false ∧
      ((∃ x, i = .arith x ∧ t.result = p) ∨ ∃ x, i = .compare x ∧ t.result = .boolean)) ∨
    ∃ x, i = .compare x ∧ (x = .eq ∨ x = .ne) ∧ t = ⟨none, .boolean, false⟩ := by
  unfold Context.binary at h
  split at h
  · split at h <;> cases h
    exact .inl rfl
  split at h
  · split at h
    · rename_i hkind _ p hp
      cases h
      refine .inr (.inl ⟨p, hp, rfl, rfl, ?_⟩)
      cases op <;> cases hop <;> first | exact .inl ⟨_, rfl, rfl⟩ | exact .inr ⟨_, rfl, rfl⟩ | cases hkind
    · cases h
  split at h
  · rename_i hequality
    have hcompare : ∃ x, i = .compare x ∧ (x = .eq ∨ x = .ne) := by
      cases op <;> cases hop <;> first | cases hequality; done | exact ⟨_, rfl, .inl rfl⟩ | exact ⟨_, rfl, .inr rfl⟩
    obtain ⟨x, rfl, hx⟩ := hcompare
    split at h
    · rename_i p hp
      cases h
      exact .inr (.inl ⟨p, hp, rfl, rfl, .inr ⟨x, rfl, rfl⟩⟩)
    · split at h <;> cases h
      exact .inr (.inr ⟨x, rfl, hx, rfl⟩)
  · cases op <;> simp_all [BinaryOp.isArithmetic, BinaryOp.isOrdering, BinaryOp.isEquality, BinaryOp.instr?]

/-- The operands are promoted by widening them. -/
theorem Ty.between?_of_promote {p : Ty} (h : lt.promote rt = some p) :
    p.isNumeric = true ∧ (Widening.between? lt p = none → lt = p) ∧ (Widening.between? rt p = none → rt = p) := by
  cases lt <;> cases rt <;> cases h <;> simp [Ty.isNumeric, Widening.between?]

/-- An operator takes its operands widened to one type. -/
theorem operation_pushes {op : BinaryOp} {i : Instr} {t : BinaryTyping} (hop : op.instr? = some i)
    (ht : c.binary op lt rt = .ok t) (ha : a.Pushes l cs ret L [lt]) (hb : b.Pushes l cs ret L [rt]) :
    ((match t.operand with | some target => widenTo target (a, lt) | none => a) ++
      (match t.operand with | some target => widenTo target (b, rt) | none => b) ++
      Block.one (if t.isConcat then .concat else i)).Pushes l cs ret L [t.result] := by
  rcases Context.binary_kinds hop ht with rfl | ⟨p, hp, hoperand, hconcat, hi⟩ | ⟨x, rfl, hx, rfl⟩
  · exact (ha.append hb).step (fun st => .concat rt lt L st) fun _ => rfl
  · obtain ⟨hnumeric, hl, hr⟩ := Ty.between?_of_promote hp
    have ha := ha.widenTo (t := p) fun hw => by rw [hl hw]; exact .refl p
    have hb := hb.widenTo (t := p) fun hw => by rw [hr hw]; exact .refl p
    rw [hoperand, hconcat]
    obtain ⟨x, rfl, hresult⟩ | ⟨x, rfl, hresult⟩ := hi
    · rw [hresult]
      exact (ha.append hb).step (fun st => .arith x hnumeric L st) fun _ => rfl
    · rw [hresult]
      exact (ha.append hb).step (fun st => .compare (.inr ⟨rfl, hnumeric⟩) L st) fun _ => rfl
  · exact (ha.append hb).step (fun st => .compare (.inl hx) L st) fun _ => rfl

theorem unary_pushes {op : UnaryOp} {t : Ty} (ht : c.unary op lt = .ok t) (ha : a.Pushes l cs ret L [lt]) :
    (a ++ .one op.instr).Pushes l cs ret L [lt] := by
  cases op with
  | neg =>
    cases hnumeric : lt.isNumeric with
    | true => exact ha.step (fun st => .neg hnumeric L st) fun _ => rfl
    | false => simp [Context.unary, hnumeric] at ht
  | not =>
    by_cases hboolean : lt = .boolean
    · subst hboolean
      exact ha.step (fun st => .not L st) fun _ => rfl
    · simp [Context.unary, hboolean] at ht

end Operators

/-! ## Expressions -/

theorem Expr.kept_eq {e : Expr} (h : e.isAssign = false) (keep : Bool) (t : Ty) : e.kept keep t = t := by simp [kept, h]

namespace Typed

variable {c : Context} {l : Loader} {cs : Constants} {scope : Scope} {L : Nat → Option Ty}

theorem storeField_types {n : Name} {f : FieldEntry} (h : l.HasField n f.ref f.ty) (keep : Bool) :
    Makes (fun _ => True) cs (storeField keep f) fun b => ∀ st,
      b.Types l cs c.ret (some ⟨L, f.ty :: .ref n :: st⟩) (some ⟨L, if keep then f.ty :: st else st⟩) := by
  have hput : Makes (fun _ => True) cs (accessField .put f) fun b => ∀ st,
      b.Types l cs c.ret (some ⟨L, f.ty :: .ref n :: st⟩) (some ⟨L, st⟩) := putField_types h
  refine .bind hput fun put => .pure fun hput st => ?_
  cases keep with
  | true => exact (Block.types_one (.dupX1 f.ty (.ref n) L st) fun _ => rfl).append (hput (f.ty :: st))
  | false => exact hput st

/-- Storing a value in a field, behind the code of the object and of the value. -/
theorem storeField_pushes {n : Name} {f : FieldEntry} {code put : Block} (keep : Bool) (hvoid : f.ty.isVoid = false)
    (hcode : code.Pushes l cs c.ret L [f.ty, .ref n]) (hput : ∀ st,
      put.Types l cs c.ret (some ⟨L, f.ty :: .ref n :: st⟩) (some ⟨L, if keep then f.ty :: st else st⟩)) :
    (code ++ put).Pushes l cs c.ret L (if keep then f.ty else .void).pushed := by
  cases keep with
  | true =>
    simp only [↓reduceIte, Ty.pushed_eq hvoid]
    exact hcode.andThen hput
  | false => exact hcode.andThen hput

/-- Storing a value in a local variable of its type, which changes no type of a local variable. -/
theorem storeLocal_pushes {slot : UInt16} {t : Ty} {code : Block} (hslot : L slot.toNat = some t) (keep : Bool)
    (hvoid : t.isVoid = false) (hcode : code.Pushes l cs c.ret L [t]) :
    ((if keep then code ++ .one .dup else code) ++ .one (.store slot)).Pushes l cs c.ret L
      (if keep then t else .void).pushed := by
  have hstore : ∀ st, (Instr.store slot).Types l cs c.ret ⟨L, t :: st⟩ ⟨L, st⟩ := by
    intro st
    have hrule : (Instr.store slot).Types l cs c.ret ⟨L, t :: st⟩ ⟨_, st⟩ := .store slot t L st
    rwa [← hslot, Function.update_eq_self] at hrule
  cases keep with
  | true =>
    simp only [↓reduceIte, Ty.pushed_eq hvoid]
    have hdup : (code ++ .one .dup).Pushes l cs c.ret L [t, t] := hcode.step (fun st => .dup t L st) fun _ => rfl
    exact hdup.step (fun st => hstore (t :: st)) fun _ => rfl
  | false => exact hcode.step hstore fun _ => rfl

theorem loadOuter_pushes (hc : c.Backed l) (hL : c.Covers L scope) (hinstance : c.isStatic = false) {outer : Name}
    (houter : c.cls.enclosing = some outer) (hinner : c.cls.isInner = true) :
    Makes (fun _ => True) cs (loadOuter c (.ref outer)) fun b => b.Pushes l cs c.ret L [.ref outer] :=
  .bind (getField_types (hc.outer houter hinner)) fun _ => .pure fun hget => (hL.loadThis hinstance).andThen hget

/-- The outer instance of a new instance is a value of the type of one more parameter, if there is one. -/
theorem newOuter_pushes (hc : c.Backed l) (hL : c.Covers L scope) (e : ClassEntry) :
    Makes (fun _ => True) cs (newOuter c e) fun r => r.1.Pushes l cs c.ret L e.outerTypes := by
  unfold newOuter ClassEntry.outerTypes
  cases hinner : e.isInner with
  | false => exact .pure .empty
  | true =>
    refine .ofExcept_bind fun source hsource => ?_
    obtain ⟨hinstance, enclosing, henclosing, hcase⟩ := Context.outerInstance_eq_ok hsource
    rw [henclosing]
    obtain ⟨rfl, hsub⟩ | ⟨rfl, own, hown, hinner', hsub⟩ := hcase
    · exact .pure ((hL.loadThis hinstance).mono (.cons (.below (hc.below hsub)) .nil))
    · dsimp only
      rw [hown]
      refine .bind (loadOuter_pushes hc hL hinstance hown hinner') fun code => .pure fun hcode => ?_
      exact hcode.mono (.cons (.below (hc.below hsub)) .nil)

/-- The code of an expression whose value is used. -/
theorem pushes_value {x : Gen (Block × Ty)} {e : Expr} {t : Ty}
    (h : Makes (fun _ => True) cs x fun r => r.1.Pushes l cs c.ret L (e.kept true t).pushed)
    (hyields : Yields x fun r => r.2 = e.kept true t) (ht : t.isVoid = false) :
    Makes (fun _ => True) cs x fun r => r.2 = t ∧ r.1.Pushes l cs c.ret L [t] := by
  rw [Expr.kept_true] at h hyields
  rw [Ty.pushed_eq ht] at h
  intro p r q heq
  obtain ⟨hgrows, hpushes⟩ := h p r q heq
  exact ⟨hgrows, fun hw => ⟨hyields p r q heq, hpushes hw⟩⟩

/-- The code of arguments that stands behind no other code. -/
theorem pushes_args {x : Gen Block} {params : List Ty}
    (h : Makes (fun _ => True) cs x fun code =>
      ∀ us, Block.empty.Pushes l cs c.ret L us → code.Pushes l cs c.ret L (params.reverse ++ us)) :
    Makes (fun _ => True) cs x fun code => code.Pushes l cs c.ret L params.reverse :=
  h.mono fun _ hcode => List.append_nil params.reverse ▸ hcode [] .empty

theorem reverse_outerTypes (e : ClassEntry) : e.outerTypes.reverse = e.outerTypes := by
  unfold ClassEntry.outerTypes
  split <;> rfl

mutual

/-- The code of an expression pushes a value of the type of the expression, if that is not `void`. -/
theorem expr_pushes (hc : c.Backed l) (hg : c.registry.Valued) (hs : scope.Valued) (hL : c.Covers L scope) (keep : Bool) :
    ∀ {e : Expr} {t : Ty}, c.typeOf scope e = .ok t →
      Makes (fun _ => True) cs (expr c scope keep e) fun r => r.1.Pushes l cs c.ret L (e.kept keep t).pushed
  | .lit x, t, h => by
    rw [Context.typeOf] at h
    cases h
    have hvalue : x.ty.isVoid = false := by cases x <;> rfl
    rw [expr, Expr.kept_eq rfl, Ty.pushed_eq hvalue]
    exact .bind (c.literal_pushes x) fun code => .pure id
  | .var name, t, h => by
    obtain ⟨target, htarget, rfl⟩ := Context.typeOf_var_eq_ok h
    rw [expr, Expr.kept_eq rfl]
    refine .ofExcept_ok_bind htarget ?_
    obtain ⟨v, rfl, hv⟩ | ⟨f, rfl, -, hinstance, hf⟩ := Context.lookupVar_eq_ok htarget
    · dsimp only
      rw [Ty.pushed_eq (hs name v hv)]
      exact .pure (.one (fun st => .load (hL.slot name v hv) st) fun _ => rfl)
    · dsimp only
      rw [Ty.pushed_eq (hg.findField? hf)]
      exact .bind (getField_types (hc.field hf)) fun code => .pure fun hcode => (hL.loadThis hinstance).andThen hcode
  | .this, t, h => by
    rw [Context.typeOf] at h
    obtain ⟨_, hinstance, h⟩ := bind_eq_ok.1 h
    cases h
    rw [expr, Expr.kept_eq rfl]
    exact .ofExcept_bind fun _ _ => .pure (hL.loadThis (Context.requireInstance_eq_ok.1 hinstance))
  | .outer, t, h => by
    rw [Context.typeOf] at h
    obtain ⟨hinstance, outer, houter, hinner, rfl⟩ := Context.outerType_eq_ok h
    rw [expr, Expr.kept_eq rfl]
    refine .ofExcept_ok_bind h ?_
    exact .bind (loadOuter_pushes hc hL hinstance houter hinner) fun code => .pure id
  | .field target name, t, h => by
    obtain ⟨t', f, ht', hf, rfl⟩ := Context.typeOf_field_eq_ok h
    have hfound := hf
    obtain ⟨n, e, rfl, -, hfound⟩ := Context.field_eq_ok hfound
    rw [expr, Expr.kept_eq rfl, Ty.pushed_eq (hg.findField? hfound)]
    have ih := pushes_value (expr_pushes hc hg hs hL true ht') (expr_yields true ht') rfl
    refine .bind_of (expr_yields true ht') ih fun a ha => ?_
    obtain ⟨code, t''⟩ := a
    obtain rfl : t'' = _ := ha
    dsimp only
    rw [Expr.kept_true]
    refine .ofExcept_ok_bind hf ?_
    exact .bind (getField_types (hc.field hfound)) fun get => .pure fun hget htarget => htarget.2.andThen hget
  | .assign (.var name) value, t, h => by
    obtain ⟨-, ht, v, hv, hassignable⟩ := Context.typeOf_assign_eq_ok h
    obtain ⟨target, htarget, rfl⟩ := Context.typeOf_var_eq_ok ht
    obtain ⟨hvalue, hvoid⟩ := Registry.isVoid_of_isAssignable hassignable
    have ih := pushes_value (expr_pushes hc hg hs hL true hv) (expr_yields true hv) hvalue
    rw [expr, Expr.kept_assign]
    refine .ofExcept_ok_bind htarget ?_
    obtain ⟨w, rfl, hw⟩ | ⟨f, rfl, -, hinstance, hf⟩ := Context.lookupVar_eq_ok htarget
    · refine .bind ih fun a => .pure fun ha => ?_
      obtain ⟨code, _⟩ := a
      obtain ⟨rfl, ha⟩ := ha
      dsimp only at hassignable hvoid ⊢
      exact storeLocal_pushes (hL.slot name w hw) keep hvoid (ha.assigned hc hassignable)
    · refine .bind ih fun a => .bind (storeField_types (c := c) (L := L) (hc.field hf) keep) fun put => .pure fun hput ha => ?_
      obtain ⟨code, _⟩ := a
      obtain ⟨rfl, ha⟩ := ha
      dsimp only at hassignable hvoid ⊢
      exact storeField_pushes keep hvoid ((hL.loadThis hinstance).append (ha.assigned hc hassignable)) hput
  | .assign (.field object name) value, t, h => by
    obtain ⟨-, ht, v, hv, hassignable⟩ := Context.typeOf_assign_eq_ok h
    obtain ⟨t', f, ht', hf, rfl⟩ := Context.typeOf_field_eq_ok ht
    have hfound := hf
    obtain ⟨n, e, rfl, -, hfound⟩ := Context.field_eq_ok hfound
    obtain ⟨hvalue, hvoid⟩ := Registry.isVoid_of_isAssignable hassignable
    have ihobject := pushes_value (expr_pushes hc hg hs hL true ht') (expr_yields true ht') rfl
    have ih := pushes_value (expr_pushes hc hg hs hL true hv) (expr_yields true hv) hvalue
    rw [expr, Expr.kept_assign]
    refine .ofExcept_bind fun _ _ => .bind_of (expr_yields true ht') ihobject fun target htarget => ?_
    obtain ⟨target, t''⟩ := target
    obtain rfl : t'' = _ := htarget
    dsimp only
    rw [Expr.kept_true]
    refine .ofExcept_ok_bind hf ?_
    refine .bind ih fun a => .bind (storeField_types (c := c) (L := L) (hc.field hfound) keep) fun put => ?_
    refine .pure fun hput ha htarget => ?_
    obtain ⟨code, _⟩ := a
    obtain ⟨rfl, ha⟩ := ha
    exact storeField_pushes keep hvoid (htarget.2.append (ha.assigned hc hassignable)) hput
  | .assign (.lit _) _, _, h | .assign .this _, _, h | .assign .outer _, _, h | .assign (.assign ..) _, _, h
  | .assign (.call ..) _, _, h | .assign (.staticCall ..) _, _, h | .assign (.new ..) _, _, h
  | .assign (.binary ..) _, _, h | .assign (.unary ..) _, _, h => nomatch (Context.typeOf_assign_eq_ok h).1
  | .call receiver name args, t, h => by
    obtain ⟨t', ts, m, ht', hts, hm, rfl⟩ := Context.typeOf_call_eq_ok h
    have hfound := hm
    obtain ⟨n, e, rfl, -, hfound, hpasses⟩ := Context.method_eq_ok hfound
    have ih := pushes_value (expr_pushes hc hg hs hL true ht') (expr_yields true ht') rfl
    rw [expr, Expr.kept_eq rfl]
    refine .ofExcept_ok_bind ht' (.ofExcept_ok_bind hts (.ofExcept_ok_bind hm ?_))
    refine .bind ih fun target => ?_
    dsimp only
    split
    · rename_i hstatic
      refine .bind (pushes_args (exprs_pushes hc hg hs hL hts hpasses .empty)) fun pushed => ?_
      refine .bind (invoke_static_types c.ret L (hc.static hfound hstatic)) fun call => .pure fun hcall hpushed htarget => ?_
      have hdropped : (target.1 ++ .one .pop).Pushes l cs c.ret L [] := htarget.2.step (fun st => .pop _ L st) fun _ => rfl
      exact (hdropped.append hpushed).andThen fun st => by simpa using hcall st
    · rename_i hstatic
      refine .bind (pushes_args (exprs_pushes hc hg hs hL hts hpasses .empty)) fun pushed => ?_
      have hanswers := hc.virtual hfound (by simpa using hstatic)
      refine .bind (invoke_virtual_types c.ret L hanswers) fun call => .pure fun hcall hpushed htarget => ?_
      exact (htarget.2.append hpushed).andThen fun st => by simpa using hcall st
  | .staticCall cls name args, t, h => by
    obtain ⟨ts, m, hts, hm, rfl⟩ := Context.typeOf_staticCall_eq_ok h
    obtain ⟨hfound, hstatic, hpasses⟩ := Context.staticMethod_eq_ok hm
    rw [expr, Expr.kept_eq rfl]
    refine .ofExcept_ok_bind hts (.ofExcept_ok_bind hm ?_)
    refine .bind (pushes_args (exprs_pushes hc hg hs hL hts hpasses .empty)) fun pushed => ?_
    refine .bind (invoke_static_types c.ret L (hc.static hfound hstatic)) fun call => .pure fun hcall hpushed => ?_
    exact hpushed.andThen hcall
  | .new cls args, t, h => by
    obtain ⟨ts, k, hts, hk, rfl⟩ := Context.typeOf_new_eq_ok h
    obtain ⟨e, he, habstract, -, hmem, hpasses⟩ := Context.constructor_eq_ok hk
    rw [expr, Expr.kept_eq rfl, Ty.pushed_eq rfl]
    refine .ofExcept_ok_bind hts (.ofExcept_ok_bind hk (.ofExcept_ok_bind (Context.classEntry_eq_ok.2 he) ?_))
    have hnew : Makes (fun _ => True) cs (Gen.instr (·.newObject cls.text)) fun b => b.Pushes l cs c.ret L [.ref cls] :=
      .instr (.cls cls.text) (fun _ => rfl) trivial fun _ hi =>
        .one (fun st => .new hi (hc.new he habstract hmem) L st) fun _ => rfl
    refine .bind hnew fun new => .bind_of (newOuter_types c e) (newOuter_pushes hc hL e) fun outer houter => ?_
    refine .bind (pushes_args (exprs_pushes hc hg hs hL hts hpasses .empty)) fun pushed => ?_
    have hname : invokeConstructor cls (outer.2 ++ k.params) = Gen.instr (·.invoke .special (e.constructorRef k.params)) := by
      rw [houter, ← (Registry.get?_eq_some he).2]
      rfl
    rw [hname]
    refine .bind (invoke_special_types c.ret L (hc.constructor he hmem)) fun call => .pure fun hcall hpushed houter hnew => ?_
    have hdup : (new ++ .one .dup).Pushes l cs c.ret L [.ref cls, .ref cls] :=
      hnew.step (fun st => .dup (.ref cls) L st) fun _ => rfl
    refine ((hdup.append houter).append hpushed).andThen fun st => ?_
    have hcall := hcall (.ref cls :: st)
    simp only [List.reverse_append, reverse_outerTypes] at hcall
    simpa using hcall
  | .binary op left right, t, h => by
    obtain ⟨lt, rt, bt, hl, hr', hbt, rfl⟩ := Context.typeOf_binary_eq_ok h
    obtain ⟨hlvoid, hrvoid, hvoid⟩ := Context.isVoid_of_binary hbt
    have ihl := pushes_value (expr_pushes hc hg hs hL true hl) (expr_yields true hl) hlvoid
    have ihr := pushes_value (expr_pushes hc hg hs hL true hr') (expr_yields true hr') hrvoid
    rw [expr, Expr.kept_eq rfl, Ty.pushed_eq hvoid]
    split
    · rename_i hop
      obtain ⟨rfl, rfl, hresult⟩ := Context.binary_of_instr?_none hop hbt
      rw [hresult]
      exact .bind ihl fun a => .bind ihr fun b => .pure fun hb ha => ha.2.shortCircuit op hb.2
    · rename_i i hop
      refine .ofExcept_ok_bind hl (.ofExcept_ok_bind hr' (.ofExcept_ok_bind hbt ?_))
      exact .bind ihl fun a => .bind ihr fun b => .pure fun hb ha => operation_pushes hop hbt ha.2 hb.2
  | .unary op operand, t, h => by
    obtain ⟨t', ht', hunary⟩ := Context.typeOf_unary_eq_ok h
    obtain ⟨hvoid, rfl⟩ := Context.isVoid_of_unary hunary
    have ih := pushes_value (expr_pushes hc hg hs hL true ht') (expr_yields true ht') hvoid
    rw [expr, Expr.kept_eq rfl, Ty.pushed_eq hvoid]
    exact .bind ih fun a => .ofExcept_bind fun _ _ => .pure fun ha => unary_pushes hunary ha.2

/-- The code of arguments pushes values of the types of the parameters above what the code before it pushes. -/
theorem exprs_pushes (hc : c.Backed l) (hg : c.registry.Valued) (hs : scope.Valued) (hL : c.Covers L scope) :
    ∀ {es : List Expr} {ts params : List Ty}, c.typesOf scope es = .ok ts → c.registry.Passes ts params → ∀ done : Block,
      Makes (fun _ => True) cs (exprs c scope es params done) fun code =>
        ∀ us, done.Pushes l cs c.ret L us → code.Pushes l cs c.ret L (params.reverse ++ us)
  | [], ts, params, hts, hpasses, done => by
    rw [Context.typesOf] at hts
    cases hts
    cases hpasses
    exact .pure fun us hdone => hdone
  | e :: rest, ts, params, hts, hpasses, done => by
    obtain ⟨t, ts', ht, hts', rfl⟩ := Context.typesOf_cons_eq_ok hts
    obtain _ | ⟨hassignable, hpasses⟩ := hpasses
    rename_i p params
    have ih := pushes_value (expr_pushes hc hg hs hL true ht) (expr_yields true ht)
      (Registry.isVoid_of_isAssignable hassignable).1
    rw [exprs]
    refine .bind ih fun a => (exprs_pushes hc hg hs hL hts' hpasses _).mono fun code hcode ha us hdone => ?_
    obtain ⟨a, _⟩ := a
    obtain ⟨rfl, ha⟩ := ha
    rw [List.reverse_cons, List.append_assoc]
    exact hcode _ (hdone.append (ha.assigned hc hassignable))

end

/-- An expression that is evaluated for its effects leaves nothing. -/
theorem discarded_pushes (hc : c.Backed l) (hg : c.registry.Valued) (hs : scope.Valued) (hL : c.Covers L scope) {e : Expr}
    {t : Ty} (h : c.typeOf scope e = .ok t) :
    Makes (fun _ => True) cs (discarded c scope e) fun b => b.Pushes l cs c.ret L [] := by
  refine .bind_of (expr_yields false h) (expr_pushes hc hg hs hL false h) fun a hty => ?_
  obtain ⟨code, t'⟩ := a
  dsimp only at hty ⊢
  subst hty
  refine .pure fun hcode => ?_
  split
  · rename_i hvoid
    rwa [Ty.pushed, if_pos hvoid] at hcode
  · rename_i hvoid
    rw [Ty.pushed, if_neg hvoid] at hcode
    exact hcode.step (fun st => .pop _ L st) fun _ => rfl

/-- So does a call of the superclass constructor. -/
theorem superCall_pushes (hc : c.Backed l) (hg : c.registry.Valued) (hs : scope.Valued) (hL : c.Covers L scope)
    (hinstance : c.isStatic = false) {superclass : Name} (hsuper : c.cls.superclass = some superclass) {args : List Expr}
    {ts : List Ty} (hts : c.typesOf scope args = .ok ts) :
    Makes (fun _ => True) cs (superCall c scope superclass args) fun b => b.Pushes l cs c.ret L [] := by
  unfold superCall
  refine .ofExcept_ok_bind hts ?_
  refine .ofExcept_bind fun k hk => ?_
  obtain ⟨s, e, hs', he, hmem, hpasses⟩ := Context.superConstructor_eq_ok hk
  obtain rfl : s = superclass := Option.some.inj (hs'.symm.trans hsuper)
  obtain ⟨hbelow, hconstructor⟩ := hc.super hsuper he hmem
  refine .bind (pushes_args (exprs_pushes hc hg hs hL hts hpasses .empty)) fun pushed => ?_
  refine .bind (invoke_special_types c.ret L hconstructor) fun call => .pure fun hcall hpushed => ?_
  have hreceiver : loadThis.Pushes l cs c.ret L [.ref s] := (hL.loadThis hinstance).mono (.cons (.below hbelow) .nil)
  exact (hreceiver.append hpushed).andThen fun st => by simpa using hcall st

end Typed

end ClassTree
