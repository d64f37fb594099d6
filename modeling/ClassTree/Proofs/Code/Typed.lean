import ClassTree.Machine.Call
import ClassTree.Proofs.Code.Balanced
import ClassTree.Proofs.Loader.Verified

/-!
# Typed code

`Loader.Typed`: the code of the classes of a loader can be followed with types. What a loader has to offer to code is said of
names: which class is below another (`Loader.Below`), which fields instances have (`Loader.HasField`), and which methods answer
a call (`Loader.Answers`, `Loader.HasStatic`, `Loader.HasConstructor`). `Instr.Types` gives, for each instruction whose operands
are resolved, the types that it finds on the stack and in the local variables and those that it leaves; there is no rule for
calls and fields by name. So code is typed if it keeps the discipline of types (`Loader.types`), which goes from a type to one
that has more values only where code says so.
-/

namespace ClassTree

/-! ## What a loader has -/

namespace Loader

variable (l : Loader)

/-- The class is the one that the loader has under its name. -/
def Holds (k : LoadedClass) : Prop := l.resolve? k.name.text = some k

/-- Every instance of the first class is one of the second. -/
def Below (a b : Name) : Prop := ∀ k, l.Holds k → (k.distance? a).isSome = true → (k.distance? b).isSome = true

/-- Every value of the first type is one of the second. -/
inductive IsSubtype : Ty → Ty → Prop
  | refl (t : Ty) : IsSubtype t t
  | null (n : Name) : IsSubtype .null (.ref n)
  | below {a b : Name} (h : l.Below a b) : IsSubtype (.ref a) (.ref b)

/-- Every instance of a class has the field that a reference names, with the type. -/
structure HasField (n : Name) (ref : MemberRef) (t : Ty) : Prop where
  owner : l.contains ref.cls = true
  slot : ∀ k, l.Holds k → (k.distance? n).isSome = true →
    ∃ i s, k.slot? ref.cls ref.name = some i ∧ k.layout[i]? = some s ∧ s.ty = t

end Loader

/-- A method of a class of the loader that can be run, and takes and gives values of these types. -/
structure Target.Serves (t : Target) (l : Loader) (sig : Signature) : Prop where
  holds : l.Holds t.cls
  mem : t.method ∈ t.cls.methods
  body : t.method.body ≠ .abstract
  params : t.method.params = sig.params
  ret : t.method.ret = sig.ret

namespace Loader

variable (l : Loader)

/-- A call of the method that a reference names has an answer for every instance of a class. -/
structure Answers (n : Name) (ref : MemberRef) (sig : Signature) : Prop where
  owner : l.contains ref.cls = true
  signature : Signature.ofDescriptor? ref.descriptor = some sig
  target : ∀ k, l.Holds k → k.isAbstract = false → (k.distance? n).isSome = true →
    ∃ t, k.findMethod? ref.name ref.descriptor = some t ∧ t.Serves l sig ∧ t.method.isStatic = false

/-- The reference names a static method. -/
structure HasStatic (ref : MemberRef) (sig : Signature) : Prop where
  signature : Signature.ofDescriptor? ref.descriptor = some sig
  target : ∃ k t, l.resolve? ref.cls = some k ∧ k.findMethod? ref.name ref.descriptor = some t ∧
    t.method.isStatic = true ∧ t.Serves l sig

/-- The reference names a constructor of a class. -/
structure HasConstructor (n : Name) (ref : MemberRef) (sig : Signature) : Prop where
  signature : Signature.ofDescriptor? ref.descriptor = some sig
  target : ∃ k m, l.resolve? ref.cls = some k ∧ k.name = n ∧ k.ownMethod? ref.name ref.descriptor = some m ∧
    m.isStatic = false ∧ (Target.mk k m).Serves l sig

/-- The objects of the heap are not abstract, and texts are not among them. -/
def Instantiable (k : LoadedClass) : Prop := l.Holds k ∧ k.isAbstract = false ∧ k.distance? .string = none

/-- Code may add instances of the class to the heap. -/
def Allocates (n : Name) : Prop := ∃ k, l.resolve? n.text = some k ∧ k.name = n ∧ l.Instantiable k

variable {l} {s t u : Ty} {a b c : Name}

theorem Below.refl (a : Name) : l.Below a a := fun _ _ h => h

theorem Below.trans (h : l.Below a b) (h' : l.Below b c) : l.Below a c := fun k hk ha => h' k hk (h k hk ha)

theorem IsSubtype.trans (h : l.IsSubtype s t) (h' : l.IsSubtype t u) : l.IsSubtype s u := by
  cases h with
  | refl => exact h'
  | null n =>
    cases h' with
    | refl => exact .null n
    | below => exact .null _
  | below h =>
    cases h' with
    | refl => exact .below h
    | below h' => exact .below (h.trans h')

end Loader

/-! ## Types on the stack -/

/-- The types of the local variables, as far as they have one, and of the operands, the top first. -/
structure TypeState where
  locals : Nat → Option Ty
  stack : List Ty

/-- What a call with a result of the type leaves on the stack. -/
def Ty.pushed (t : Ty) : List Ty := if t.isVoid then [] else [t]

theorem Ty.pushed_eq {t : Ty} (h : t.isVoid = false) : t.pushed = [t] := by simp [pushed, h]

def Immediate.ty : Immediate → Ty
  | .null => .null
  | .true | .false => .boolean
  | .zero | .one => .int

/-- The type of the value that an item stands for. -/
def Item.ty? : Item → Option Ty
  | .int _ => some .int
  | .long _ => some .long
  | .double _ => some .double
  | .string _ => some .string
  | _ => none

/-- Whether an operator compares values of these types. -/
def CompareOp.Compares (op : CompareOp) (a b : Ty) : Prop := (op = .eq ∨ op = .ne) ∨ a = b ∧ a.isNumeric = true

section Rules

variable (l : Loader) (cs : Constants) (ret : Ty)

/-- What an instruction does to types, in code with these constants and a result of the type `ret`. -/
inductive Instr.Types : Instr → TypeState → TypeState → Prop
  | ldc {i : UInt16} {item : Item} {t : Ty} {L : Nat → Option Ty} {st : List Ty} (hi : cs.Has i item)
      (ht : item.ty? = some t) : Types (.ldc i) ⟨L, st⟩ ⟨L, t :: st⟩
  | push (k : Immediate) (L : Nat → Option Ty) (st : List Ty) : Types (.push k) ⟨L, st⟩ ⟨L, k.ty :: st⟩
  | pop (t : Ty) (L : Nat → Option Ty) (st : List Ty) : Types .pop ⟨L, t :: st⟩ ⟨L, st⟩
  | dup (t : Ty) (L : Nat → Option Ty) (st : List Ty) : Types .dup ⟨L, t :: st⟩ ⟨L, t :: t :: st⟩
  | dupX1 (t u : Ty) (L : Nat → Option Ty) (st : List Ty) : Types .dupX1 ⟨L, t :: u :: st⟩ ⟨L, t :: u :: t :: st⟩
  | load {slot : UInt16} {t : Ty} {L : Nat → Option Ty} (h : L slot.toNat = some t) (st : List Ty) :
      Types (.load slot) ⟨L, st⟩ ⟨L, t :: st⟩
  | store (slot : UInt16) (t : Ty) (L : Nat → Option Ty) (st : List Ty) :
      Types (.store slot) ⟨L, t :: st⟩ ⟨Function.update L slot.toNat (some t), st⟩
  | getField {ref : UInt16} {r : MemberRef} {n : Name} {t : Ty} (hr : cs.fieldRef? ref = some r) (h : l.HasField n r t)
      (L : Nat → Option Ty) (st : List Ty) : Types (.field .get ref) ⟨L, .ref n :: st⟩ ⟨L, t :: st⟩
  | putField {ref : UInt16} {r : MemberRef} {n : Name} {t : Ty} (hr : cs.fieldRef? ref = some r) (h : l.HasField n r t)
      (L : Nat → Option Ty) (st : List Ty) : Types (.field .put ref) ⟨L, t :: .ref n :: st⟩ ⟨L, st⟩
  | new {cls : UInt16} {n : Name} (hn : cs.className? cls = some n.text) (h : l.Allocates n) (L : Nat → Option Ty)
      (st : List Ty) : Types (.new cls) ⟨L, st⟩ ⟨L, .ref n :: st⟩
  | virtual {ref : UInt16} {r : MemberRef} {n : Name} {sig : Signature} (hr : cs.methodRef? ref = some r)
      (h : l.Answers n r sig) (L : Nat → Option Ty) (st : List Ty) :
      Types (.invoke .virtual ref) ⟨L, sig.params.reverse ++ .ref n :: st⟩ ⟨L, sig.ret.pushed ++ st⟩
  | static {ref : UInt16} {r : MemberRef} {sig : Signature} (hr : cs.methodRef? ref = some r) (h : l.HasStatic r sig)
      (L : Nat → Option Ty) (st : List Ty) :
      Types (.invoke .static ref) ⟨L, sig.params.reverse ++ st⟩ ⟨L, sig.ret.pushed ++ st⟩
  | special {ref : UInt16} {r : MemberRef} {n : Name} {sig : Signature} (hr : cs.methodRef? ref = some r)
      (h : l.HasConstructor n r sig) (L : Nat → Option Ty) (st : List Ty) :
      Types (.invoke .special ref) ⟨L, sig.params.reverse ++ .ref n :: st⟩ ⟨L, sig.ret.pushed ++ st⟩
  | arith (op : ArithOp) {t : Ty} (ht : t.isNumeric = true) (L : Nat → Option Ty) (st : List Ty) :
      Types (.arith op) ⟨L, t :: t :: st⟩ ⟨L, t :: st⟩
  | neg {t : Ty} (ht : t.isNumeric = true) (L : Nat → Option Ty) (st : List Ty) : Types .neg ⟨L, t :: st⟩ ⟨L, t :: st⟩
  | not (L : Nat → Option Ty) (st : List Ty) : Types .not ⟨L, .boolean :: st⟩ ⟨L, .boolean :: st⟩
  | concat (t u : Ty) (L : Nat → Option Ty) (st : List Ty) : Types .concat ⟨L, t :: u :: st⟩ ⟨L, .string :: st⟩
  | widen {w : Widening} {s t : Ty} (hw : Widening.between? s t = some w) (L : Nat → Option Ty) (st : List Ty) :
      Types (.widen w) ⟨L, s :: st⟩ ⟨L, t :: st⟩
  | compare {op : CompareOp} {t u : Ty} (h : op.Compares t u) (L : Nat → Option Ty) (st : List Ty) :
      Types (.compare op) ⟨L, t :: u :: st⟩ ⟨L, .boolean :: st⟩
  | jump (w : UInt16) (s : TypeState) : Types (.jump w) s s
  | jumpIfFalse (w : UInt16) (L : Nat → Option Ty) (st : List Ty) : Types (.jumpIfFalse w) ⟨L, .boolean :: st⟩ ⟨L, st⟩
  | loop (w : UInt16) (s : TypeState) : Types (.loop w) s s
  | ret (L : Nat → Option Ty) (st : List Ty) : Types .ret ⟨L, ret :: st⟩ ⟨L, st⟩
  | retVoid (s : TypeState) : Types .retVoid s s

/-- Relations between lists of the same length, one after the other. -/
theorem forall₂_comp {α β γ : Type} {R : α → β → Prop} {S : β → γ → Prop} {T : α → γ → Prop} {xs : List α} {ys : List β}
    {zs : List γ} (h : ∀ x y z, R x y → S y z → T x z) (hxy : List.Forall₂ R xs ys) (hyz : List.Forall₂ S ys zs) :
    List.Forall₂ T xs zs := by
  induction hxy generalizing zs with
  | nil =>
    cases hyz
    exact .nil
  | cons hx _ ih =>
    obtain _ | ⟨hy, hyz⟩ := hyz
    exact .cons (h _ _ _ hx hy) (ih hyz)

/-- Local variables may be forgotten, and operands may be taken for values of a type that has more. -/
structure TypeState.Entails (s t : TypeState) : Prop where
  locals : ∀ n ty, t.locals n = some ty → s.locals n = some ty
  stack : List.Forall₂ l.IsSubtype s.stack t.stack

theorem TypeState.Entails.trans {l : Loader} {s t u : TypeState} (h : s.Entails l t) (h' : t.Entails l u) : s.Entails l u := by
  refine ⟨fun n ty hn => h.locals n ty (h'.locals n ty hn), ?_⟩
  exact forall₂_comp (fun _ _ _ hst htu => hst.trans htu) h.stack h'.stack

/-- Following code with types. -/
def Loader.types : Discipline TypeState where
  admits _ := True
  step := Instr.Types l cs ret
  entails := TypeState.Entails l
  refl _ := ⟨fun _ _ h => h, List.forall₂_same.2 fun t _ => .refl t⟩
  trans := .trans

/-- Entered with the first types, code runs to its end and leaves the second, where `none` means that control does not get
there. -/
abbrev Block.Types (b : Block) (s t : Option TypeState) : Prop := b.Flows (l.types cs ret) s t

end Rules

/-! ## Methods -/

/-- The types of the local variables that a method of a class begins with. -/
def LoadedMethod.locals (m : LoadedMethod) (cls : Name) : List Ty := (if m.isStatic then [] else [.ref cls]) ++ m.params

namespace Loader

/-- If the method has code, it is typed, and control does not get to its end. -/
def TypedMethod (l : Loader) (k : LoadedClass) (m : LoadedMethod) : Prop :=
  ∀ maxLocals code, m.body = .code maxLocals code → ∃ b : Block, code = b.encode ∧ b.overflowed = false ∧
    b.Types l k.constants m.ret (some ⟨fun n => (m.locals k.name)[n]?, []⟩) none

/-- All code of the loader is typed. Buffers have no subclasses, every instance has a text, and only the host library has
methods without code. -/
structure Typed (l : Loader) : Prop where
  reachable : l.Reachable
  builder : ∀ k, l.Holds k → (k.distance? .stringBuilder).isSome = true → k.host = some .stringBuilder
  native : ∀ k, l.Holds k → ∀ m ∈ k.methods, ∀ n, m.body = .native n → k ∈ LoadedClass.hosts
  text : l.Answers .object ⟨Name.object.text, "toString", toStringDescriptor⟩ ⟨[], .string⟩
  methods : ∀ k, l.Holds k → ∀ m ∈ k.methods, l.TypedMethod k m

end Loader

end ClassTree
