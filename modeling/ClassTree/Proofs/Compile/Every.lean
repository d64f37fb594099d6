import ClassTree.Proofs.Compile.Makes
import ClassTree.Proofs.Typing.Checked
import ClassTree.Proofs.Typing.Chosen

/-!
# What every instruction of generated code satisfies

`Block.Every R b`: every instruction of the block `b` satisfies `R`. `Gen.Names P cs R item f`: the item may be added to the
pool, and an instruction `f i` whose index `i` stands for it satisfies `R`.

`Rules b P cs R c` says this of all instructions that name constants and can be made in the context `c`: what types choose
is what the lookups find, and what is named at run time is any text. Code that is made in the context then satisfies `R`
throughout, if the slots of its variables do (`compileMethod_every`). So a property of single instructions is shown once for
each way in which they come about, and the traversal is done here once for all of them.
-/

namespace ClassTree

/-! ## Blocks -/

/-- Whether the instruction names no constant and no slot, and does not return a value. -/
def Instr.isPlain : Instr → Bool
  | .ldc _ | .load _ | .store _ | .field .. | .fieldDyn .. | .new _ | .invoke .. | .invokeDynamic .. | .invokeSpecialDyn ..
  | .invokeStaticDyn .. | .ret => false
  | _ => true

/-- Every instruction of the block satisfies `R`. -/
def Block.Every (R : Instr → Prop) (b : Block) : Prop := ∀ i ∈ b.instrs, R i

section Blocks

variable {R : Instr → Prop}

namespace Block

@[simp] theorem every_empty : empty.Every R := by simp [Every, empty]

@[simp] theorem every_one {i : Instr} : (one i).Every R ↔ R i := by simp [Every, one]

@[simp] theorem every_append {a b : Block} : (a ++ b).Every R ↔ a.Every R ∧ b.Every R := by
  change (∀ i ∈ a.instrs ++ b.instrs, R i) ↔ _
  simp only [Array.mem_append, or_imp, forall_and]
  rfl

variable (hplain : ∀ i : Instr, i.isPlain = true → R i)
include hplain

theorem every_jumpBy {j : UInt16 → Instr} (hj : ∀ w, (j w).isPlain = true) (n : Nat) : (jumpBy j n).Every R := by
  unfold jumpBy
  split
  · exact every_one.2 (hplain _ (hj _))
  · exact every_one.2 (hplain _ (hj 0))

theorem every_ifThen {a b : Block} (ha : a.Every R) (hb : b.Every R) : (ifThen a b).Every R :=
  every_append.2 ⟨every_append.2 ⟨ha, every_jumpBy hplain (fun _ => rfl) _⟩, hb⟩

theorem every_ifElse {a b c : Block} (ha : a.Every R) (hb : b.Every R) (hc : c.Every R) : (ifElse a b c).Every R :=
  every_append.2 ⟨every_append.2 ⟨every_append.2 ⟨every_append.2 ⟨ha, every_jumpBy hplain (fun _ => rfl) _⟩, hb⟩,
    every_jumpBy hplain (fun _ => rfl) _⟩, hc⟩

theorem every_repeatWhile {a b : Block} (ha : a.Every R) (hb : b.Every R) : (repeatWhile a b).Every R :=
  every_append.2 ⟨every_append.2 ⟨every_append.2 ⟨ha, every_jumpBy hplain (fun _ => rfl) _⟩, hb⟩,
    every_jumpBy hplain (fun _ => rfl) _⟩

end Block

variable (hplain : ∀ i : Instr, i.isPlain = true → R i)
include hplain

theorem every_pushBool (b : Bool) : (pushBool b).Every R := Block.every_one.2 (hplain _ rfl)

theorem every_shortCircuit {op : BinaryOp} {a b : Block} (ha : a.Every R) (hb : b.Every R) :
    (shortCircuit op a b).Every R := by
  have hpush : ∀ k, (Block.one (.push k)).Every R := fun k => Block.every_one.2 (hplain _ rfl)
  unfold shortCircuit
  split
  · exact Block.every_ifElse hplain ha hb (hpush _)
  · exact Block.every_ifElse hplain ha (hpush _) hb

theorem every_widenTo {t : Ty} {r : Block × Ty} (hr : r.1.Every R) : (widenTo t r).Every R := by
  obtain ⟨code, s⟩ := r
  rw [widenTo]
  split
  · exact Block.every_append.2 ⟨hr, Block.every_one.2 (hplain _ rfl)⟩
  · exact hr

end Blocks

/-! ## Members that code names -/

/-- Whether the item is a value that can be pushed. -/
def Item.isLoadable : Item → Bool
  | .int _ | .long _ | .double _ | .string _ => true
  | _ => false

namespace ClassEntry

/-- The types of the parameters that constructors of the class have before those that they declare. -/
def outerTypes (e : ClassEntry) : List Ty := if e.isInner then [(e.enclosing.map .ref).getD .null] else []

/-- A reference to a constructor of the class that declares these parameters. -/
def constructorRef (e : ClassEntry) (params : List Ty) : MemberRef :=
  ⟨e.name.text, constructorName, (Signature.mk (e.outerTypes ++ params) .void).descriptor⟩

end ClassEntry

def FieldEntry.ref (f : FieldEntry) : MemberRef := ⟨f.owner.text, f.name, f.ty.descriptor⟩

def MethodEntry.ref (m : MethodEntry) : MemberRef := ⟨m.owner.text, m.name, m.descriptor⟩

/-! ## Rules -/

/-- The item may be added to the pool, and an instruction that names it satisfies `R`. -/
def Gen.Names (P : Item → Prop) (cs : Constants) (R : Instr → Prop) (item : Item) (f : UInt16 → Instr) : Prop :=
  P item ∧ ∀ i, cs.Has i item → R (f i)

/-- What members are chosen by types may be named. -/
structure Typed.Rules (P : Item → Prop) (cs : Constants) (R : Instr → Prop) (c : Context) : Prop where
  field : ∀ {n name f}, c.registry.findField? n name = some f → ∀ access, Gen.Names P cs R (.field f.ref) (.field access)
  outer : ∀ {outer}, c.cls.enclosing = some outer → c.cls.isInner = true →
    Gen.Names P cs R (.field ⟨c.cls.name.text, outerField, (Ty.ref outer).descriptor⟩) (.field .get)
  method : ∀ {n name m args}, m ∈ c.registry.findMethods n name → c.registry.Passes args m.params →
    Gen.Names P cs R (.method m.ref) (.invoke (if m.isStatic then .static else .virtual))
  new : ∀ {n e}, c.registry.get? n = some e → Gen.Names P cs R (.cls n.text) .new
  constructor : ∀ {n e k args}, c.registry.get? n = some e → k ∈ e.constructors → c.registry.Passes args k.params →
    Gen.Names P cs R (.method (e.constructorRef k.params)) (.invoke .special)
  super : ∀ {n e k args}, c.cls.superclass = some n → c.registry.get? n = some e → k ∈ e.constructors →
    c.registry.Passes args k.params → Gen.Names P cs R (.method ⟨n.text, constructorName, k.descriptor⟩) (.invoke .special)

/-- Every text may be named, and every class. -/
structure ByName.Rules (P : Item → Prop) (cs : Constants) (R : Instr → Prop) : Prop where
  field : ∀ name access, Gen.Names P cs R (.utf8 name) (.fieldDyn access)
  method : ∀ name argc, Gen.Names P cs R (.utf8 name) (.invokeDynamic · argc)
  new : ∀ n : Name, Gen.Names P cs R (.cls n.text) .new
  constructor : ∀ (n : Name) argc, Gen.Names P cs R (.cls n.text) (.invokeSpecialDyn · argc)
  static : ∀ (n : Name) (name : String) argc, P (.cls n.text) ∧ P (.utf8 name) ∧
    ∀ i j, cs.Has i (.cls n.text) → cs.Has j (.utf8 name) → R (.invokeStaticDyn i j argc)

/-- All instructions that name no variable and can be made in the context satisfy `R`, and of the others the receiver's. -/
structure Rules (b : Binding) (P : Item → Prop) (cs : Constants) (R : Instr → Prop) (c : Context) : Prop where
  plain : ∀ i : Instr, i.isPlain = true → R i
  literal : ∀ item : Item, item.isLoadable = true → Gen.Names P cs R item .ldc
  receiver : c.isStatic = false → R (.load 0)
  result : c.ret.isVoid = false → R .ret
  typed : b = .static → Typed.Rules P cs R c
  byName : b = .dynamic → ByName.Rules P cs R

/-- The slots below a number may be named. -/
def SlotsBelow (R : Instr → Prop) (n : Nat) : Prop := ∀ slot : UInt16, slot.toNat < n → R (.load slot) ∧ R (.store slot)

theorem SlotsBelow.mono {R : Instr → Prop} {n n' : Nat} (h : SlotsBelow R n') (hle : n ≤ n') : SlotsBelow R n :=
  fun slot hslot => h slot (Nat.lt_of_lt_of_le hslot hle)

/-- All visible variables have slots that were handed out. -/
def Scope.Regular (s : Scope) : Prop := ∃ ls, s.Shows ls

/-- The visible variables may be named. -/
structure Scope.Allowed (R : Instr → Prop) (s : Scope) : Prop where
  regular : s.Regular
  slots : SlotsBelow R s.nextSlot

theorem Scope.Allowed.lookup {R : Instr → Prop} {s : Scope} (h : s.Allowed R) {x : String} {v : Local}
    (hv : s.lookup? x = some v) : R (.load v.slot) ∧ R (.store v.slot) := by
  obtain ⟨ls, hls⟩ := h.regular
  exact h.slots v.slot (hls.slot_lt v (hls.mem_of_lookup? hv).1)

variable {b : Binding} {P : Item → Prop} {cs : Constants} {R : Instr → Prop} {c : Context} {scope : Scope}

theorem Gen.Names.makes {item : Item} {f : UInt16 → Instr} (h : Names P cs R item f) {make : Pool → Instr × Pool}
    (hmake : ∀ p, make p = Pool.instr f (p.put item)) : Makes P cs (Gen.instr make) (·.Every R) :=
  .instr item hmake h.1 fun i hi => Block.every_one.2 (h.2 i hi)

namespace Rules

variable (h : Rules b P cs R c)
include h

theorem loadThis (hinstance : c.isStatic = false) : loadThis.Every R := Block.every_one.2 (h.receiver hinstance)

theorem pushInt (n : Int32) : Gen.Makes P cs (Gen.instr (·.pushInt n)) (·.Every R) := by
  obtain ⟨hP, hR⟩ := h.literal (.int n) rfl
  exact .pushInt hP (fun _ => Block.every_one.2 (h.plain _ rfl)) (fun _ => Block.every_one.2 (h.plain _ rfl))
    fun i hi => Block.every_one.2 (hR i hi)

theorem literal_every (x : Literal) : Gen.Makes P cs (c.literal x) (·.Every R) := by
  cases x with
  | null => exact .pure (Block.every_one.2 (h.plain _ rfl))
  | bool b => exact .pure (every_pushBool h.plain b)
  | int n => exact h.pushInt n
  | long n => exact (h.literal (.long n) rfl).makes fun _ => rfl
  | double d => exact (h.literal (.double d) rfl).makes fun _ => rfl
  | str s =>
    rw [Context.literal]
    split
    · exact (h.literal (.string s) rfl).makes fun _ => rfl
    · exact .throw

theorem pushDefault (t : Ty) : Gen.Makes P cs (pushDefault t) (·.Every R) := by
  cases t with
  | boolean => exact .pure (every_pushBool h.plain false)
  | int => exact h.pushInt 0
  | long => exact (h.literal (.long 0) rfl).makes fun _ => rfl
  | double => exact (h.literal (.double (.zero false)) rfl).makes fun _ => rfl
  | void | null | ref _ => exact .pure (Block.every_one.2 (h.plain _ rfl))

end Rules

/-! ## Expressions with resolved references -/

namespace Typed

/-- The outer instance of a new instance has the type of the first parameter of the constructors. -/
theorem newOuter_types (c : Context) (e : ClassEntry) : Gen.Yields (newOuter c e) fun r => r.2 = e.outerTypes := by
  unfold newOuter ClassEntry.outerTypes
  cases e.isInner with
  | false => exact .pure rfl
  | true =>
    refine .bind (.ofExcept fun _ _ => trivial) fun source _ => ?_
    cases source with
    | this => exact .pure rfl
    | outerOfThis => exact .bind .of_true fun _ _ => .pure rfl

variable (h : ClassTree.Rules .static P cs R c)
include h

theorem accessField_every {n : Name} {name : String} {f : FieldEntry} (hf : c.registry.findField? n name = some f)
    (access : FieldAccess) : Gen.Makes P cs (accessField access f) (·.Every R) :=
  ((h.typed rfl).field hf access).makes fun _ => rfl

theorem storeField_every (keep : Bool) {n : Name} {name : String} {f : FieldEntry}
    (hf : c.registry.findField? n name = some f) : Gen.Makes P cs (storeField keep f) (·.Every R) := by
  refine .bind (accessField_every h hf .put) fun put => .pure fun hput => ?_
  split
  · exact Block.every_append.2 ⟨Block.every_one.2 (h.plain _ rfl), hput⟩
  · exact hput

theorem loadOuter_every (hinstance : c.isStatic = false) {outer : Name} (houter : c.cls.enclosing = some outer)
    (hinner : c.cls.isInner = true) : Gen.Makes P cs (loadOuter c (.ref outer)) (·.Every R) :=
  .bind (((h.typed rfl).outer houter hinner).makes fun _ => rfl) fun _ => .pure fun hcode =>
    Block.every_append.2 ⟨h.loadThis hinstance, hcode⟩

theorem newOuter_every (e : ClassEntry) : Gen.Makes P cs (newOuter c e) fun r => r.1.Every R := by
  unfold newOuter
  cases hinner : e.isInner with
  | false => exact .pure Block.every_empty
  | true =>
    refine .ofExcept_bind fun source hsource => ?_
    obtain ⟨hinstance, enclosing, -, ⟨rfl, -⟩ | ⟨rfl, own, hown, hinner', -⟩⟩ := Context.outerInstance_eq_ok hsource
    · exact .pure (h.loadThis hinstance)
    · dsimp only
      rw [hown]
      exact .bind (loadOuter_every h hinstance hown hinner') fun code => .pure id

/-- An operator takes its operands widened to one type. -/
theorem operation_every {op : BinaryOp} {i : Instr} (hop : op.instr? = some i) (t : BinaryTyping) {a b : Block}
    (ha : a.Every R) (hb : b.Every R) (lt rt : Ty) :
    ((match t.operand with | some target => widenTo target (a, lt) | none => a) ++
      (match t.operand with | some target => widenTo target (b, rt) | none => b) ++
      Block.one (if t.isConcat then .concat else i)).Every R := by
  have hi : (if t.isConcat then Instr.concat else i).isPlain = true := by
    split
    · rfl
    · cases op <;> cases hop <;> rfl
  refine Block.every_append.2 ⟨Block.every_append.2 ⟨?_, ?_⟩, Block.every_one.2 (h.plain _ hi)⟩
  · split
    · exact every_widenTo h.plain ha
    · exact ha
  · split
    · exact every_widenTo h.plain hb
    · exact hb

mutual

/-- Every instruction of the code of an expression satisfies `R`. -/
theorem expr_every (hs : scope.Allowed R) (keep : Bool) : ∀ e : Expr,
    Gen.Makes P cs (expr c scope keep e) fun r => r.1.Every R
  | .lit x => by
    rw [expr]
    exact .bind (h.literal_every x) fun code => .pure id
  | .var name => by
    rw [expr]
    refine .ofExcept_bind fun target htarget => ?_
    obtain ⟨v, rfl, hv⟩ | ⟨f, rfl, -, hinstance, hf⟩ := Context.lookupVar_eq_ok htarget
    · exact .pure (Block.every_one.2 (hs.lookup hv).1)
    · exact .bind (accessField_every h hf .get) fun code => .pure fun hcode =>
        Block.every_append.2 ⟨h.loadThis hinstance, hcode⟩
  | .this => by
    rw [expr]
    exact .ofExcept_bind fun _ hinstance => .pure (h.loadThis (Context.requireInstance_eq_ok.1 hinstance))
  | .outer => by
    rw [expr]
    refine .ofExcept_bind fun t ht => ?_
    obtain ⟨hinstance, outer, houter, hinner, rfl⟩ := Context.outerType_eq_ok ht
    exact .bind (loadOuter_every h hinstance houter hinner) fun code => .pure id
  | .field target name => by
    rw [expr]
    refine .bind (expr_every hs true target) fun r => .ofExcept_bind fun f hf => ?_
    obtain ⟨n, e, -, -, hfound⟩ := Context.field_eq_ok hf
    exact .bind (accessField_every h hfound .get) fun code => .pure fun hcode htarget =>
      Block.every_append.2 ⟨htarget, hcode⟩
  | .assign (.var name) value => by
    rw [expr]
    refine .ofExcept_bind fun target htarget => ?_
    obtain ⟨v, rfl, hv⟩ | ⟨f, rfl, -, hinstance, hf⟩ := Context.lookupVar_eq_ok htarget
    · refine .bind (expr_every hs true value) fun r => .pure fun hvalue => ?_
      have hcode := every_widenTo (t := v.ty) h.plain hvalue
      cases keep with
      | true => simp [hcode, (hs.lookup hv).2, h.plain .dup rfl]
      | false => simp [hcode, (hs.lookup hv).2]
    · refine .bind (expr_every hs true value) fun r => ?_
      refine .bind (storeField_every h keep hf) fun put => .pure fun hput hvalue => ?_
      exact Block.every_append.2 ⟨Block.every_append.2 ⟨h.loadThis hinstance, every_widenTo h.plain hvalue⟩, hput⟩
  | .assign (.field object name) value => by
    rw [expr]
    refine .ofExcept_bind fun t _ => .bind (expr_every hs true object) fun target => .ofExcept_bind fun f hf => ?_
    obtain ⟨n, e, -, -, hfound⟩ := Context.field_eq_ok hf
    refine .bind (expr_every hs true value) fun r => ?_
    refine .bind (storeField_every h keep hfound) fun put => .pure fun hput hvalue htarget => ?_
    exact Block.every_append.2 ⟨Block.every_append.2 ⟨htarget, every_widenTo h.plain hvalue⟩, hput⟩
  | .assign (.lit _) _ | .assign .this _ | .assign .outer _ | .assign (.assign ..) _ | .assign (.call ..) _
  | .assign (.staticCall ..) _ | .assign (.new ..) _ | .assign (.binary ..) _ | .assign (.unary ..) _ => by
    rw [expr]
    · exact .ofExcept_bind fun _ _ => .throw
    all_goals simp
  | .call receiver method args => by
    rw [expr]
    refine .ofExcept_bind fun _ _ => .ofExcept_bind fun _ _ => .ofExcept_bind fun m hm => ?_
    obtain ⟨n, e, -, -, hfound, hpasses⟩ := Context.method_eq_ok hm
    have hmethod := (h.typed rfl).method hfound hpasses
    refine .bind (expr_every hs true receiver) fun target => ?_
    dsimp only
    cases hstatic : m.isStatic with
    | true =>
      rw [hstatic] at hmethod
      refine .bind (exprs_every hs args m.params .empty) fun pushed => ?_
      refine .bind (hmethod.makes fun _ => rfl) fun call => .pure fun hcall hpushed htarget => ?_
      have hdropped := Block.every_append.2 ⟨htarget, Block.every_one.2 (h.plain .pop rfl)⟩
      exact Block.every_append.2 ⟨Block.every_append.2 ⟨hdropped, hpushed Block.every_empty⟩, hcall⟩
    | false =>
      rw [hstatic] at hmethod
      refine .bind (exprs_every hs args m.params .empty) fun pushed => ?_
      refine .bind (hmethod.makes fun _ => rfl) fun call => .pure fun hcall hpushed htarget => ?_
      exact Block.every_append.2 ⟨Block.every_append.2 ⟨htarget, hpushed Block.every_empty⟩, hcall⟩
  | .staticCall cls method args => by
    rw [expr]
    refine .ofExcept_bind fun _ _ => .ofExcept_bind fun m hm => ?_
    obtain ⟨hfound, hstatic, hpasses⟩ := Context.staticMethod_eq_ok hm
    have hmethod := (h.typed rfl).method hfound hpasses
    rw [hstatic] at hmethod
    refine .bind (exprs_every hs args m.params .empty) fun pushed => ?_
    refine .bind (hmethod.makes fun _ => rfl) fun call => .pure fun hcall hpushed => ?_
    exact Block.every_append.2 ⟨hpushed Block.every_empty, hcall⟩
  | .new cls args => by
    rw [expr]
    refine .ofExcept_bind fun _ _ => .ofExcept_bind fun k hk => .ofExcept_bind fun e he => ?_
    obtain ⟨e', he', -, -, hmem, hpasses⟩ := Context.constructor_eq_ok hk
    obtain rfl : e' = e := Option.some.inj (he'.symm.trans (Context.classEntry_eq_ok.1 he))
    have hconstructor := (h.typed rfl).constructor he' hmem hpasses
    have hcall : Gen.Makes P cs (invokeConstructor cls (e'.outerTypes ++ k.params)) (·.Every R) := by
      rw [ClassEntry.constructorRef, (Registry.get?_eq_some he').2] at hconstructor
      exact hconstructor.makes fun _ => rfl
    refine .bind (((h.typed rfl).new he').makes fun _ => rfl) fun new => ?_
    refine .bind_of (newOuter_types c e') (newOuter_every h e') fun outer houter => ?_
    dsimp only
    rw [houter]
    refine .bind (exprs_every hs args k.params .empty) fun pushed => ?_
    refine .bind hcall fun call => .pure fun hcall hpushed houter hnew => ?_
    have htwo := Block.every_append.2 ⟨hnew, Block.every_one.2 (h.plain .dup rfl)⟩
    exact Block.every_append.2 ⟨Block.every_append.2 ⟨Block.every_append.2 ⟨htwo, houter⟩,
      hpushed Block.every_empty⟩, hcall⟩
  | .binary op left right => by
    rw [expr]
    split
    · refine .bind (expr_every hs true left) fun a => .bind (expr_every hs true right) fun b => .pure fun hb ha => ?_
      exact every_shortCircuit h.plain ha hb
    · rename_i i hop
      refine .ofExcept_bind fun lt _ => .ofExcept_bind fun rt _ => .ofExcept_bind fun t _ => ?_
      refine .bind (expr_every hs true left) fun a => .bind (expr_every hs true right) fun b => .pure fun hb ha => ?_
      exact operation_every h hop t ha hb lt rt
  | .unary op operand => by
    rw [expr]
    refine .bind (expr_every hs true operand) fun r => .ofExcept_bind fun _ _ => .pure fun hr => ?_
    have hop : op.instr.isPlain = true := by cases op <;> rfl
    exact Block.every_append.2 ⟨hr, Block.every_one.2 (h.plain _ hop)⟩

/-- So does every instruction of the code of arguments, if it is so for the code before them. -/
theorem exprs_every (hs : scope.Allowed R) : ∀ (es : List Expr) (ts : List Ty) (done : Block),
    Gen.Makes P cs (exprs c scope es ts done) fun code => done.Every R → code.Every R
  | e :: rest, t :: ts, done => by
    rw [exprs]
    refine .bind (expr_every hs true e) fun r => (exprs_every hs rest ts _).mono fun code hcode hr hdone => hcode ?_
    exact Block.every_append.2 ⟨hdone, every_widenTo h.plain hr⟩
  | [], _, done => by
    rw [exprs]
    · exact .pure id
    · simp
  | _ :: _, [], done => by
    rw [exprs]
    · exact .pure id
    · simp

end

theorem discarded_every (hs : scope.Allowed R) (e : Expr) : Gen.Makes P cs (discarded c scope e) (·.Every R) := by
  refine .bind (expr_every h hs false e) fun r => .pure fun hr => ?_
  split
  · exact hr
  · exact Block.every_append.2 ⟨hr, Block.every_one.2 (h.plain _ rfl)⟩

theorem superCall_every (hthis : R (.load 0)) (hs : scope.Allowed R) {n : Name} (hn : c.cls.superclass = some n)
    (args : List Expr) : Gen.Makes P cs (superCall c scope n args) (·.Every R) := by
  refine .ofExcept_bind fun _ _ => .ofExcept_bind fun k hk => ?_
  obtain ⟨n', e, hn', he, hmem, hpasses⟩ := Context.superConstructor_eq_ok hk
  obtain rfl : n = n' := Option.some.inj (hn.symm.trans hn')
  refine .bind (exprs_every h hs args k.params .empty) fun pushed => ?_
  refine .bind (((h.typed rfl).super hn he hmem hpasses).makes fun _ => rfl) fun call => .pure fun hcall hpushed => ?_
  exact Block.every_append.2 ⟨Block.every_append.2 ⟨Block.every_one.2 hthis, hpushed Block.every_empty⟩, hcall⟩

end Typed

/-! ## Expressions with names as references -/

namespace ByName

theorem outerSource?_yields (c : Context) (e : ClassEntry) :
    Gen.Yields (outerSource? c e) fun source => source.isSome = true → c.isStatic = false := by
  unfold outerSource?
  split
  · refine .bind (.ofExcept fun source hsource => ?_) fun _ hinstance => .pure fun _ => hinstance
    exact (Context.outerInstance_eq_ok hsource).1
  · exact .pure fun hsome => nomatch hsome

theorem outerSource?_makes (c : Context) (e : ClassEntry) : Gen.Makes P cs (outerSource? c e) fun _ => True := by
  unfold outerSource?
  split
  · exact .ofExcept_bind fun _ _ => .pure trivial
  · exact .pure trivial

theorem argCount_makes (c : Context) (n : Nat) : Gen.Makes P cs (c.argCount n) fun _ => True := by
  unfold Context.argCount
  split
  · exact .pure trivial
  · exact .throw

/-- What is made after a check of the context. -/
theorem requireInstance_makes {α : Type} {x : Gen α} {Q : α → Prop} (what : String)
    (hx : c.isStatic = false → Gen.Makes P cs x Q) : Gen.Makes P cs (requireInstance c what >>= fun _ => x) Q :=
  .ofExcept_bind fun _ hinstance => hx (Context.requireInstance_eq_ok.1 hinstance)

section Parts

variable (h : ClassTree.Rules .dynamic P cs R c)
include h

theorem getField_every (name : String) : Gen.Makes P cs (getField name) (·.Every R) :=
  ((h.byName rfl).field name .get).makes fun _ => rfl

theorem storeField_every (keep : Bool) (name : String) : Gen.Makes P cs (storeField keep name) (·.Every R) := by
  refine .bind (((h.byName rfl).field name .put).makes fun _ => rfl) fun put => .pure fun hput => ?_
  split
  · exact Block.every_append.2 ⟨Block.every_one.2 (h.plain _ rfl), hput⟩
  · exact hput

theorem loadOuter_every (hinstance : c.isStatic = false) : Gen.Makes P cs loadOuter (·.Every R) :=
  .bind (getField_every h _) fun _ => .pure fun hcode => Block.every_append.2 ⟨h.loadThis hinstance, hcode⟩

theorem newOuter_every {source : Option OuterSource} (hinstance : source.isSome = true → c.isStatic = false) :
    Gen.Makes P cs (newOuter source) (·.Every R) := by
  match source with
  | none => exact .pure Block.every_empty
  | some .this => exact .pure (h.loadThis (hinstance rfl))
  | some .outerOfThis => exact loadOuter_every h (hinstance rfl)

end Parts

mutual

/-- Every instruction of the code of an expression satisfies `R`. -/
theorem expr_every (h : ClassTree.Rules .dynamic P cs R c) (hs : scope.Allowed R) (keep : Bool) : ∀ e : Expr,
    Gen.Makes P cs (expr c scope keep e) (·.Every R)
  | .lit x => by
    rw [expr]
    exact h.literal_every x
  | .var name => by
    rw [expr]
    split
    · rename_i v hv
      exact .pure (Block.every_one.2 (hs.lookup hv).1)
    · refine requireInstance_makes _ fun hinstance => .bind (getField_every h name) fun code => .pure fun hcode => ?_
      exact Block.every_append.2 ⟨h.loadThis hinstance, hcode⟩
  | .this => by
    rw [expr]
    exact requireInstance_makes _ fun hinstance => .pure (h.loadThis hinstance)
  | .outer => by
    rw [expr]
    refine requireInstance_makes _ fun hinstance => ?_
    split
    · exact .bind (Q := fun _ => False) .throw fun _ => (loadOuter_every h hinstance).mono fun _ hcode _ => hcode
    · exact loadOuter_every h hinstance
  | .field target name => by
    rw [expr]
    exact .bind (expr_every h hs true target) fun code => .bind (getField_every h name) fun get => .pure fun hget hcode =>
      Block.every_append.2 ⟨hcode, hget⟩
  | .assign (.var name) value => by
    rw [expr]
    split
    · rename_i v hv
      refine .bind (expr_every h hs true value) fun code => .pure fun hcode => ?_
      cases keep with
      | true => simp [hcode, (hs.lookup hv).2, h.plain .dup rfl]
      | false => simp [hcode, (hs.lookup hv).2]
    · refine requireInstance_makes _ fun hinstance => .bind (expr_every h hs true value) fun code => ?_
      refine .bind (storeField_every h keep name) fun put => .pure fun hput hcode => ?_
      exact Block.every_append.2 ⟨Block.every_append.2 ⟨h.loadThis hinstance, hcode⟩, hput⟩
  | .assign (.field object name) value => by
    rw [expr]
    refine .bind (expr_every h hs true object) fun target => .bind (expr_every h hs true value) fun code => ?_
    refine .bind (storeField_every h keep name) fun put => .pure fun hput hcode htarget => ?_
    exact Block.every_append.2 ⟨Block.every_append.2 ⟨htarget, hcode⟩, hput⟩
  | .assign (.lit _) _ | .assign .this _ | .assign .outer _ | .assign (.assign ..) _ | .assign (.call ..) _
  | .assign (.staticCall ..) _ | .assign (.new ..) _ | .assign (.binary ..) _ | .assign (.unary ..) _ => by
    rw [expr]
    · exact .throw
    all_goals simp
  | .call receiver name args => by
    rw [expr]
    refine .bind (argCount_makes c args.length) fun argc => .bind (expr_every h hs true receiver) fun target => ?_
    refine .bind (exprs_every h hs args .empty) fun pushed => ?_
    refine .bind (((h.byName rfl).method name argc).makes fun _ => rfl) fun call => .pure fun hcall hpushed htarget _ => ?_
    exact Block.every_append.2 ⟨Block.every_append.2 ⟨htarget, hpushed Block.every_empty⟩, hcall⟩
  | .staticCall cls name args => by
    rw [expr]
    refine .bind (argCount_makes c args.length) fun argc => .bind (exprs_every h hs args .empty) fun pushed => ?_
    obtain ⟨hcls, hname, hR⟩ := (h.byName rfl).static cls name argc
    have hcall : Gen.Makes P cs (Gen.instr (·.invokeStaticDyn cls.text name argc)) (·.Every R) :=
      .invokeStaticDyn hcls hname fun i j hi hj => Block.every_one.2 (hR i j hi hj)
    exact .bind hcall fun call => .pure fun hcall hpushed _ => Block.every_append.2 ⟨hpushed Block.every_empty, hcall⟩
  | .new cls args => by
    rw [expr]
    refine .ofExcept_bind fun e _ => .bind_of (outerSource?_yields c e) (outerSource?_makes c e) fun source hsource => ?_
    refine .bind (argCount_makes c _) fun argc => ?_
    refine .bind (((h.byName rfl).new cls).makes fun _ => rfl) fun new => .bind (newOuter_every h hsource) fun outer => ?_
    refine .bind (exprs_every h hs args .empty) fun pushed => ?_
    refine .bind (((h.byName rfl).constructor cls argc).makes fun _ => rfl) fun call => .pure
      fun hcall hpushed houter hnew _ _ => ?_
    have htwo := Block.every_append.2 ⟨hnew, Block.every_one.2 (h.plain .dup rfl)⟩
    have hargs := Block.every_append.2 ⟨Block.every_append.2 ⟨htwo, houter⟩, hpushed Block.every_empty⟩
    exact Block.every_append.2 ⟨Block.every_append.2 ⟨hargs, hcall⟩, Block.every_one.2 (h.plain .pop rfl)⟩
  | .binary op left right => by
    rw [expr]
    refine .bind (expr_every h hs true left) fun a => .bind (expr_every h hs true right) fun b => ?_
    split
    · exact .pure fun hb ha => every_shortCircuit h.plain ha hb
    · rename_i i hop
      have hi : i.isPlain = true := by cases op <;> cases hop <;> rfl
      exact .pure fun hb ha => Block.every_append.2 ⟨Block.every_append.2 ⟨ha, hb⟩, Block.every_one.2 (h.plain _ hi)⟩
  | .unary op operand => by
    rw [expr]
    have hop : op.instr.isPlain = true := by cases op <;> rfl
    exact .bind (expr_every h hs true operand) fun code => .pure fun hcode =>
      Block.every_append.2 ⟨hcode, Block.every_one.2 (h.plain _ hop)⟩

/-- So does every instruction of the code of arguments, if it is so for the code before them. -/
theorem exprs_every (h : ClassTree.Rules .dynamic P cs R c) (hs : scope.Allowed R) : ∀ (es : List Expr) (done : Block),
    Gen.Makes P cs (exprs c scope es done) fun code => done.Every R → code.Every R
  | [], done => by
    rw [exprs]
    exact .pure id
  | e :: rest, done => by
    rw [exprs]
    refine .bind (expr_every h hs true e) fun code => (exprs_every h hs rest _).mono fun all hall hcode hdone => hall ?_
    exact Block.every_append.2 ⟨hdone, hcode⟩

end

theorem discarded_every (h : ClassTree.Rules .dynamic P cs R c) (hs : scope.Allowed R) (e : Expr) :
    Gen.Makes P cs (discarded c scope e) (·.Every R) := by
  refine .bind (expr_every h hs false e) fun code => .pure fun hcode => ?_
  split
  · exact hcode
  · exact Block.every_append.2 ⟨hcode, Block.every_one.2 (h.plain _ rfl)⟩

theorem superCall_every (h : ClassTree.Rules .dynamic P cs R c) (hthis : R (.load 0)) (hs : scope.Allowed R) (n : Name)
    (args : List Expr) : Gen.Makes P cs (superCall c scope n args) (·.Every R) := by
  refine .bind (argCount_makes c args.length) fun argc => .bind (exprs_every h hs args .empty) fun pushed => ?_
  refine .bind (((h.byName rfl).constructor n argc).makes fun _ => rfl) fun call => .pure fun hcall hpushed _ => ?_
  have hargs := Block.every_append.2 ⟨Block.every_one.2 hthis, hpushed Block.every_empty⟩
  exact Block.every_append.2 ⟨Block.every_append.2 ⟨hargs, hcall⟩, Block.every_one.2 (h.plain .pop rfl)⟩

end ByName

/-! ## Statements -/

theorem compileValue_every (h : Rules b P cs R c) {s : Scope} (hs : s.Allowed R) (e : Expr) (expected : Ty) :
    Gen.Makes P cs (compileValue b c s e expected) (·.Every R) := by
  cases b with
  | static => exact .bind (Typed.expr_every h hs true e) fun _ => .pure fun hcode => every_widenTo h.plain hcode
  | dynamic => exact ByName.expr_every h hs true e

theorem compileDiscarded_every (h : Rules b P cs R c) {s : Scope} (hs : s.Allowed R) (e : Expr) :
    Gen.Makes P cs (compileDiscarded b c s e) (·.Every R) := by
  cases b with
  | static => exact Typed.discarded_every h hs e
  | dynamic => exact ByName.discarded_every h hs e

theorem compileSuperCall_every (h : Rules b P cs R c) (hthis : R (.load 0)) {s : Scope} (hs : s.Allowed R)
    (args : List Expr) : Gen.Makes P cs (compileSuperCall b c s args) (·.Every R) := by
  unfold compileSuperCall
  split
  · exact .throw
  · rename_i n hn
    cases b with
    | static => exact Typed.superCall_every h hthis hs hn args
    | dynamic => exact ByName.superCall_every h hthis hs n args

theorem declareVar_makes (c : Context) (s : Scope) (name : String) (ty : Ty) :
    Gen.Makes P cs (declareVar c s name ty) fun _ => True := by
  unfold declareVar
  split
  · exact .pure trivial
  · exact .throw

theorem declareParams_makes (c : Context) (params : List Param) (s : Scope) :
    Gen.Makes P cs (declareParams c params s) fun _ => True := by
  induction params generalizing s with
  | nil => exact .pure trivial
  | cons p params ih => exact .bind (declareVar_makes c s p.name p.ty) fun a => (ih a.2).mono fun _ h _ => h

namespace Scope

variable {s s' : Scope} {news : List Local}

theorem Adds.regular (h : s.Adds news s') (hs : s.Regular) : s'.Regular := by
  obtain ⟨ls, hls⟩ := hs
  exact ⟨_, h.visible ls hls⟩

theorem Regular.after (h : s.Regular) (x : Stmt) : (x.after s).Regular := by
  obtain ⟨news, hadds⟩ := x.exists_adds_after s
  exact hadds.regular h

theorem Regular.enter (h : s.Regular) : s.enter.Regular := by
  obtain ⟨ls, hls⟩ := h
  exact ⟨ls, hls.enter⟩

end Scope

theorem Stmt.nextSlot_le_after (x : Stmt) (s : Scope) : s.nextSlot ≤ (x.after s).nextSlot := by
  obtain ⟨news, hadds⟩ := x.exists_adds_after s
  exact hadds.nextSlot

theorem nextSlot_le_afterAll (xs : List Stmt) (s : Scope) : s.nextSlot ≤ (afterAll xs s).nextSlot := by
  obtain ⟨news, hadds⟩ := exists_adds_afterAll xs s
  exact hadds.nextSlot

/-- A variable is stored to a slot that was handed out by the end of its declaration. -/
theorem declareVar_stores {s : Scope} {name : String} {ty : Ty} {init : Option Expr}
    (hslots : SlotsBelow R ((Stmt.decl name ty init).after s).nextSlot) :
    Gen.Yields (declareVar c s name ty) fun a => R (.store a.1) := by
  intro p a q heq
  have hd := declareVar_yields c s name ty p a q heq
  obtain ⟨-, hslot, hnext⟩ := Scope.declare_eq_ok hd
  rw [Stmt.after, hd, hnext] at hslots
  exact (hslots a.1 (hslot ▸ Nat.lt_succ_self _)).2

mutual

/-- Every instruction of the code of a statement satisfies `R`, if the slots handed out until its end may be named. -/
theorem compileStmt_every (h : Rules b P cs R c) : ∀ (x : Stmt) {s : Scope}, s.Regular →
    SlotsBelow R (x.after s).nextSlot → Gen.Makes P cs (compileStmt b c x s) (·.1.Every R)
  | .block stmts, s, hs, hslots => by
    rw [Stmt.after] at hslots
    rw [compileStmt]
    exact .bind (compileStmts_every h stmts hs.enter hslots .empty) fun a => .pure fun ha => ha Block.every_empty
  | .decl name ty none, s, _, hslots => by
    rw [compileStmt]
    refine .bind (h.pushDefault ty) fun code => ?_
    refine .bind_of (declareVar_stores hslots) (declareVar_makes c s name ty) fun a ha => .pure fun _ hcode => ?_
    exact Block.every_append.2 ⟨hcode, Block.every_one.2 ha⟩
  | .decl name ty (some e), s, hs, hslots => by
    rw [compileStmt]
    refine .bind (compileValue_every h ⟨hs, hslots.mono (Stmt.nextSlot_le_after _ s)⟩ e ty) fun code => ?_
    refine .bind_of (declareVar_stores hslots) (declareVar_makes c s name ty) fun a ha => .pure fun _ hcode => ?_
    exact Block.every_append.2 ⟨hcode, Block.every_one.2 ha⟩
  | .expr e, s, hs, hslots => by
    rw [Stmt.after] at hslots
    rw [compileStmt]
    exact .bind (compileDiscarded_every h ⟨hs, hslots⟩ e) fun code => .pure id
  | .ret none, s, _, _ => by
    rw [compileStmt]
    exact .pure (Block.every_one.2 (h.plain _ rfl))
  | .ret (some e), s, hs, hslots => by
    rw [Stmt.after] at hslots
    rw [compileStmt]
    split
    · exact .bind (compileDiscarded_every h ⟨hs, hslots⟩ e) fun code => .pure fun hcode =>
        Block.every_append.2 ⟨hcode, Block.every_one.2 (h.plain _ rfl)⟩
    · rename_i hret
      exact .bind (compileValue_every h ⟨hs, hslots⟩ e c.ret) fun code => .pure fun hcode =>
        Block.every_append.2 ⟨hcode, Block.every_one.2 (h.result (by simpa using hret))⟩
  | .cond test t none, s, hs, hslots => by
    rw [Stmt.after] at hslots
    have hscope : s.Allowed R := ⟨hs, hslots.mono (t.nextSlot_le_after s.enter)⟩
    rw [compileStmt]
    refine .bind (compileValue_every h hscope test .boolean) fun code => ?_
    refine .bind (compileStmt_every h t hs.enter hslots) fun a => .pure fun ha hcode => ?_
    exact Block.every_ifThen h.plain hcode ha
  | .cond test t (some e), s, hs, hslots => by
    rw [Stmt.after] at hslots
    have hthen : SlotsBelow R (t.after s.enter).nextSlot := hslots.mono (e.nextSlot_le_after (t.after s.enter).pop.enter)
    have hscope : s.Allowed R := ⟨hs, hthen.mono (t.nextSlot_le_after s.enter)⟩
    have hpop : (t.after s.enter).pop.enter.Regular := by
      obtain ⟨news, hadds⟩ := t.exists_adds_after s.enter
      exact (hadds.pop.regular hs).enter
    rw [compileStmt]
    refine .bind (compileValue_every h hscope test .boolean) fun code => ?_
    refine .bind_of (compileStmt_yields b c t s.enter) (compileStmt_every h t hs.enter hthen) fun a ha => ?_
    dsimp only
    rw [ha]
    refine .bind (compileStmt_every h e hpop hslots) fun a' => .pure fun ha' ha hcode => ?_
    exact Block.every_ifElse h.plain hcode ha ha'
  | .loop test body, s, hs, hslots => by
    rw [Stmt.after] at hslots
    have hscope : s.Allowed R := ⟨hs, hslots.mono (body.nextSlot_le_after s.enter)⟩
    rw [compileStmt]
    refine .bind (compileValue_every h hscope test .boolean) fun code => ?_
    refine .bind (compileStmt_every h body hs.enter hslots) fun a => .pure fun ha hcode => ?_
    exact Block.every_repeatWhile h.plain hcode ha
  | .superCall _, _, _, _ => by
    rw [compileStmt]
    exact .throw

/-- So does every instruction of the code of statements, if it is so for the code before them. -/
theorem compileStmts_every (h : Rules b P cs R c) : ∀ (xs : List Stmt) {s : Scope}, s.Regular →
    SlotsBelow R (afterAll xs s).nextSlot → ∀ done,
    Gen.Makes P cs (compileStmts b c xs s done) fun a => done.Every R → a.1.Every R
  | [], s, _, _, done => by
    rw [compileStmts]
    exact .pure id
  | x :: rest, s, hs, hslots, done => by
    rw [afterAll] at hslots
    rw [compileStmts]
    have hx := compileStmt_every h x hs (hslots.mono (nextSlot_le_afterAll rest _))
    refine .bind_of (compileStmt_yields b c x s) hx fun a ha => ?_
    dsimp only
    rw [ha]
    refine (compileStmts_every h rest (hs.after x) hslots _).mono fun a' ha' ha hdone => ?_
    exact ha' (Block.every_append.2 ⟨hdone, ha⟩)

end

/-! ## Methods -/

theorem exists_adds_afterParams (params : List Param) (s : Scope) : ∃ news, s.Adds news (afterParams params s) := by
  induction params generalizing s with
  | nil => exact ⟨[], .refl s⟩
  | cons p params ih =>
    obtain ⟨news, h⟩ := s.exists_adds_declare p.name p.ty
    obtain ⟨news', h'⟩ := ih (s.declare p.name p.ty).2
    exact ⟨news' ++ news, h.trans h'⟩

theorem exists_adds_initializerScope (params : List Param) : ∃ news, Scope.ofInstance.Adds news (initializerScope params) := by
  unfold initializerScope
  split
  · split
    · exact Scope.exists_adds_declare _ _ _
    · exact ⟨[], .refl _⟩
  · exact ⟨[], .refl _⟩

theorem Context.regular_firstScope (c : Context) : c.firstScope.Regular := by
  unfold Context.firstScope
  split
  · exact ⟨[], Scope.shows_ofStatic⟩
  · exact ⟨[], Scope.shows_ofInstance⟩

namespace LoweredMethod

/-- The variables at the end of a method, when all slots are handed out. -/
def lastScope (m : LoweredMethod) (first : Scope) : Scope :=
  match m.body with
  | .abstract => afterParams m.params first
  | .method body | .constructor _ _ body => (Stmt.block body).after (afterParams m.params first)

/-- The variables of the method may be named, and those that its field initialisers see. -/
structure Allowed (R : Instr → Prop) (m : LoweredMethod) (first : Scope) : Prop where
  slots : SlotsBelow R (m.lastScope first).nextSlot
  receiver : ∀ args initializers body, m.body = .constructor args initializers body → R (.load 0)
  initializers : ∀ args initializers body, m.body = .constructor args initializers body →
    SlotsBelow R (afterAll initializers (initializerScope m.params)).nextSlot

end LoweredMethod

/-- The code of a method is that of a block whose instructions all satisfy `R`. -/
theorem compileMethod_every (h : Rules b P cs R c) {m : LoweredMethod} (hm : m.Allowed R c.firstScope) :
    Gen.Makes P cs (compileMethod b c m) fun mc => mc.maxLocals = (m.lastScope c.firstScope).maxLocals ∧
      ∃ block : Block, mc.code = block.encode ∧ block.Every R := by
  have hfinish : ∀ (code : Block) (s : Scope), Gen.Makes P cs (compileMethod.finish c code s) fun mc =>
      code.Every R → mc.maxLocals = s.maxLocals ∧ ∃ block : Block, mc.code = block.encode ∧ block.Every R := by
    intro code s
    unfold compileMethod.finish
    split
    · exact .throw
    · exact .pure fun hcode => ⟨rfl, code, rfl, hcode⟩
  obtain ⟨params, hparams⟩ := exists_adds_afterParams m.params c.firstScope
  have hregular := hparams.regular c.regular_firstScope
  unfold compileMethod
  refine .bind_of (declareParams_yields c m.params _) (declareParams_makes c m.params _) fun s hs => ?_
  obtain ⟨rfl, -⟩ := hs
  change Gen.Makes P cs (match m.body with | .abstract => _ | .method _ => _ | .constructor _ _ _ => _) _
  have hslots := hm.slots
  unfold LoweredMethod.lastScope at hslots ⊢
  split
  · exact .pure fun _ => ⟨rfl, .empty, rfl, Block.every_empty⟩
  · rename_i body hbody
    rw [hbody] at hslots
    have hlast := compileStmt_yields b c (.block body) (afterParams m.params c.firstScope)
    refine .bind_of hlast (compileStmt_every h _ hregular hslots) fun a ha => ?_
    exact (hfinish a.1 a.2).mono fun mc hmc hcode _ => ha ▸ hmc hcode
  · rename_i superArgs initializers body hbody
    rw [hbody] at hslots
    obtain ⟨news, hnews⟩ := exists_adds_initializerScope m.params
    have hscope : (afterParams m.params c.firstScope).Allowed R := ⟨hregular, hslots.mono (Stmt.nextSlot_le_after _ _)⟩
    have hlast := compileStmt_yields b c (.block body) (afterParams m.params c.firstScope)
    refine .bind (compileSuperCall_every h (hm.receiver _ _ _ hbody) hscope superArgs) fun call => ?_
    refine .bind (compileStmts_every h initializers (hnews.regular ⟨[], Scope.shows_ofInstance⟩)
      (hm.initializers _ _ _ hbody) .empty) fun inits => ?_
    refine .bind_of hlast (compileStmt_every h _ hregular hslots) fun a ha => ?_
    refine (hfinish _ a.2).mono fun mc hmc hcode hinits hcall _ => ha ▸ hmc ?_
    exact Block.every_append.2 ⟨Block.every_append.2 ⟨hcall, hinits Block.every_empty⟩, hcode⟩

end ClassTree
