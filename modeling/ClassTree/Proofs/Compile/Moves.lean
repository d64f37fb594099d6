import ClassTree.Proofs.Code.Balanced
import ClassTree.Proofs.Compile.Limits
import ClassTree.Proofs.Compile.Typed

/-!
# What single instructions do to the stack

`Gen.Emits r x Q`: whenever `x` succeeds, the pool only grows, and if the pool `r` comes of it, what `x` makes satisfies `Q`.
The pool `r` may be full: then an index may stand for nothing, but never for something else than it was made for
(`Pool.methodRef?_of_later`). So also a call by reference does to the stack what the descriptor of its method says
(`invoke_moves`).
-/

namespace ClassTree

/-! ## Full pools -/

namespace Pool

variable {p r : Pool}

theorem later_put (p : Pool) (item : Item) : p.Later (p.put item).2 :=
  have hgrows : Grows (fun _ => True) p (p.put item).2 := Grows.single trivial
  hgrows.later

/-- If the index of an addition stands for a constant, that one is equal to what was added. -/
theorem canonical_of_later {c k : Constant} (hr : r.WellFormed) (h : (p.add c).2.Later r)
    (hk : r.constants.get? (p.add c).1 = some k) : k.canonical = c.canonical := by
  have hkept : ∀ i, r.index[c.canonical]? = some i → r.constants.get? i = some k → k.canonical = c.canonical := by
    intro i hi hk
    obtain ⟨k', hk', heq⟩ := hr.index _ _ hi
    obtain rfl : k' = k := Option.some.inj (hk'.symm.trans hk)
    exact heq
  cases hi : p.index[c.canonical]? with
  | some i =>
    simp only [add, hi] at h hk
    exact hkept i (h.index _ _ hi) hk
  | none =>
    simp only [add, hi] at h hk
    split at hk
    · rename_i hlt
      rw [if_pos hlt] at h
      exact hkept _ (h.index _ _ (by simp)) hk
    · simp [Constants.get?] at hk

theorem utf8?_of_later {s s' : String} (hr : r.WellFormed) (h : (p.addUtf8 s).2.Later r)
    (hs : r.constants.utf8? (p.addUtf8 s).1 = some s') : s' = s := by
  unfold Constants.utf8? at hs
  split at hs
  · rename_i t ht
    cases hs
    have heq := eq_of_canonical (c := .utf8 s') (by simp [Constant.canonical])
      (canonical_of_later (c := .utf8 s) hr h ht)
    cases heq
    rfl
  · cases hs

theorem className?_of_later {name name' : String} (hr : r.WellFormed) (h : (p.addClass name).2.Later r)
    (hname : r.constants.className? (p.addClass name).1 = some name') : name' = name := by
  rw [addClass_eq] at h hname
  unfold Constants.className? at hname
  split at hname
  · rename_i i hi
    have heq := eq_of_canonical (c := .cls i) (by simp [Constant.canonical]) (canonical_of_later hr h hi)
    cases heq
    exact utf8?_of_later hr ((later_add _ _).trans h) hname
  · cases hname

theorem methodRef_of_later {cls name descriptor cls' name' descriptor' : UInt16} (hr : r.WellFormed)
    (h : (p.add (.methodRef cls name descriptor)).2.Later r)
    (hk : r.constants.get? (p.add (.methodRef cls name descriptor)).1 = some (.methodRef cls' name' descriptor')) :
    cls' = cls ∧ name' = name ∧ descriptor' = descriptor := by
  have heq := eq_of_canonical (c := .methodRef cls' name' descriptor') (by simp [Constant.canonical])
    (canonical_of_later hr h hk)
  cases heq
  exact ⟨rfl, rfl, rfl⟩

/-- The index that was made for a reference stands for no other one. -/
theorem methodRef?_of_later {ref ref' : MemberRef} (hr : r.WellFormed) (h : (p.put (.method ref)).2.Later r)
    (href : r.constants.methodRef? (p.put (.method ref)).1 = some ref') : ref' = ref := by
  rw [put, addMethodRef_eq] at h href
  unfold Constants.methodRef? at href
  split at href
  · rename_i cls name descriptor hi
    obtain ⟨hc, hn, hd⟩ := methodRef_of_later hr h hi
    rw [hc, hn, hd] at href
    have hmember := (later_add _ _).trans h
    rw [addMember_eq] at hmember href
    dsimp only at hmember href
    obtain ⟨cls', hcls, href⟩ := Option.bind_eq_some_iff.1 href
    obtain ⟨name', hname, href⟩ := Option.bind_eq_some_iff.1 href
    obtain ⟨descriptor', hdescriptor, href⟩ := Option.bind_eq_some_iff.1 href
    cases href
    have hbefore := (later_add _ _).trans hmember
    rw [className?_of_later hr ((later_add _ _).trans hbefore) hcls, utf8?_of_later hr hbefore hname,
      utf8?_of_later hr hmember hdescriptor]
  · cases href

end Pool

/-! ## Making code -/

namespace Gen

/-- Whatever is made satisfies `Q` if the pool `r` comes of the pool that is left. -/
def Emits {α : Type} (r : Pool) (x : Gen α) (Q : α → Prop) : Prop :=
  ∀ p a q, x p = .ok a q → p.Later q ∧ (q.Later r → Q a)

namespace Emits

variable {α β : Type} {r : Pool} {Q Q' : α → Prop} {R : β → Prop}

theorem pure {a : α} (h : Q a) : Emits r (Pure.pure a) Q := by
  intro p b q heq
  cases heq
  exact ⟨.refl p, fun _ => h⟩

theorem throw {d : Diagnostic} : Emits r (MonadExcept.throw d : Gen α) Q := by
  intro p b q heq
  cases heq

theorem mono {x : Gen α} (hx : Emits r x Q) (h : ∀ a, Q a → Q' a) : Emits r x Q' := by
  intro p a q heq
  obtain ⟨hlater, hQ⟩ := hx p a q heq
  exact ⟨hlater, fun hr => h a (hQ hr)⟩

/-- What is made first satisfies `S` whatever becomes of the pool. -/
theorem bind_of {x : Gen α} {f : α → Gen β} {S : α → Prop} (hS : Yields x S) (hx : Emits r x Q)
    (hf : ∀ a, S a → Emits r (f a) fun b => Q a → R b) : Emits r (x >>= f) R := by
  intro p b q heq
  obtain ⟨a, p', hxp, hfp⟩ := bind_ok_cases heq
  obtain ⟨hlater, hQ⟩ := hx p a p' hxp
  obtain ⟨hlater', hR⟩ := hf a (hS p a p' hxp) p' b q hfp
  exact ⟨hlater.trans hlater', fun hr => hR hr (hQ (hlater'.trans hr))⟩

theorem bind {x : Gen α} {f : α → Gen β} (hx : Emits r x Q) (hf : ∀ a, Emits r (f a) fun b => Q a → R b) :
    Emits r (x >>= f) R := bind_of .of_true hx fun a _ => hf a

/-- The rule for what comes after something that does not depend on the pool. -/
theorem ofExcept_bind {x : Except Diagnostic α} {f : α → Gen β} (h : ∀ a, x = .ok a → Emits r (f a) R) :
    Emits r (Gen.ofExcept x >>= f) R := by
  cases x with
  | ok a => exact h a rfl
  | error d =>
    intro p b q heq
    cases heq

/-- The same, where it is known what that comes to. -/
theorem ofExcept_ok_bind {x : Except Diagnostic α} {f : α → Gen β} {a : α} (hx : x = .ok a) (h : Emits r (f a) R) :
    Emits r (Gen.ofExcept x >>= f) R := by
  rw [hx]
  exact h

/-- The rule for an instruction that is made with an addition to the pool. -/
theorem instr {make : Pool → Instr × Pool} {Q : Block → Prop} (hlater : ∀ p : Pool, p.Later (make p).2)
    (h : ∀ p : Pool, (make p).2.Later r → Q (.one (make p).1)) : Emits r (Gen.instr make) Q := by
  intro p b q heq
  obtain ⟨rfl, rfl⟩ := instr_ok_cases heq
  exact ⟨hlater p, h p⟩

/-- The rule for an instruction that names an item. -/
theorem naming {make : Pool → Instr × Pool} {f : UInt16 → Instr} {Q : Block → Prop} (item : Item)
    (hmake : ∀ p, make p = Pool.instr f (p.put item))
    (h : ∀ p : Pool, (p.put item).2.Later r → Q (.one (f (p.put item).1))) : Emits r (Gen.instr make) Q := by
  refine .instr (fun p => ?_) fun p => ?_
  · rw [hmake]
    exact p.later_put item
  · rw [hmake]
    exact h p

/-- So for one that is no call by reference. -/
theorem moves {make : Pool → Instr × Pool} {f : UInt16 → Instr} {pops pushes : Nat} (item : Item)
    (hmake : ∀ p, make p = Pool.instr f (p.put item)) (hmoves : ∀ i, (f i).moves? r.constants = some (pops, pushes))
    (htarget : ∀ i o, (f i).target? o = none) : Emits r (Gen.instr make) (·.Moves r pops pushes) :=
  .naming item hmake fun _ _ => Block.moves_one (.inl (hmoves _)) (htarget _)

end Emits

end Gen

open Gen

/-! ## Single instructions -/

section Instructions

variable {r : Pool}

theorem moves_loadThis : loadThis.Moves r 0 1 := Block.moves_one (.inl rfl) fun _ => rfl

theorem moves_push (x : Immediate) : (Block.one (.push x)).Moves r 0 1 := Block.moves_one (.inl rfl) fun _ => rfl

theorem moves_pushBool (b : Bool) : (pushBool b).Moves r 0 1 := moves_push _

theorem pushInt_moves (n : Int32) : Emits r (Gen.instr (·.pushInt n)) (·.Moves r 0 1) := by
  refine .instr (fun p => ?_) fun p _ => ?_
  · unfold Pool.pushInt
    split
    · exact .refl p
    · split
      · exact .refl p
      · exact p.later_put (.int n)
  · unfold Pool.pushInt
    split
    · exact moves_push _
    · split
      · exact moves_push _
      · exact Block.moves_one (.inl rfl) fun _ => rfl

theorem pushLong_moves (n : Int64) : Emits r (Gen.instr (·.pushLong n)) (·.Moves r 0 1) :=
  .moves (.long n) (fun _ => rfl) (fun _ => rfl) fun _ _ => rfl

theorem pushDouble_moves (d : Double) : Emits r (Gen.instr (·.pushDouble d)) (·.Moves r 0 1) :=
  .moves (.double d) (fun _ => rfl) (fun _ => rfl) fun _ _ => rfl

theorem Context.literal_moves (c : Context) (l : Literal) : Emits r (c.literal l) (·.Moves r 0 1) := by
  cases l with
  | null => exact .pure (moves_push _)
  | bool b => exact .pure (moves_pushBool b)
  | int n => exact pushInt_moves n
  | long n => exact pushLong_moves n
  | double d => exact pushDouble_moves d
  | str s =>
    rw [Context.literal]
    split
    · exact .moves (.string s) (fun _ => rfl) (fun _ => rfl) fun _ _ => rfl
    · exact .throw

theorem pushDefault_moves (t : Ty) : Emits r (pushDefault t) (·.Moves r 0 1) := by
  cases t with
  | boolean => exact .pure (moves_pushBool false)
  | int => exact pushInt_moves 0
  | long => exact pushLong_moves 0
  | double => exact pushDouble_moves (.zero false)
  | void | null | ref _ => exact .pure (moves_push _)

theorem getField_moves (ref : MemberRef) : Emits r (Gen.instr (·.accessField .get ref)) (·.Moves r 1 1) :=
  .moves (.field ref) (fun _ => rfl) (fun _ => rfl) fun _ _ => rfl

theorem putField_moves (ref : MemberRef) : Emits r (Gen.instr (·.accessField .put ref)) (·.Moves r 2 0) :=
  .moves (.field ref) (fun _ => rfl) (fun _ => rfl) fun _ _ => rfl

theorem getFieldDyn_moves (name : String) : Emits r (Gen.instr (·.accessFieldDyn .get name)) (·.Moves r 1 1) :=
  .moves (.utf8 name) (fun _ => rfl) (fun _ => rfl) fun _ _ => rfl

theorem putFieldDyn_moves (name : String) : Emits r (Gen.instr (·.accessFieldDyn .put name)) (·.Moves r 2 0) :=
  .moves (.utf8 name) (fun _ => rfl) (fun _ => rfl) fun _ _ => rfl

theorem newObject_moves (name : String) : Emits r (Gen.instr (·.newObject name)) (·.Moves r 0 1) :=
  .moves (.cls name) (fun _ => rfl) (fun _ => rfl) fun _ _ => rfl

theorem invokeDynamic_moves (name : String) (argc : UInt8) :
    Emits r (Gen.instr (·.invokeDynamic name argc)) (·.Moves r (argc.toNat + 1) 1) :=
  .moves (.utf8 name) (fun _ => rfl) (fun _ => rfl) fun _ _ => rfl

theorem invokeSpecialDyn_moves (cls : String) (argc : UInt8) :
    Emits r (Gen.instr (·.invokeSpecialDyn cls argc)) (·.Moves r (argc.toNat + 1) 1) :=
  .moves (.cls cls) (fun _ => rfl) (fun _ => rfl) fun _ _ => rfl

theorem invokeStaticDyn_moves (cls name : String) (argc : UInt8) :
    Emits r (Gen.instr (·.invokeStaticDyn cls name argc)) (·.Moves r argc.toNat 1) := by
  refine .instr (fun p => ?_) fun p _ => ?_
  · rw [Pool.invokeStaticDyn_eq]
    exact (p.later_put (.cls cls)).trans ((p.put (.cls cls)).2.later_put (.utf8 name))
  · rw [Pool.invokeStaticDyn_eq]
    exact Block.moves_one (.inl rfl) fun _ => rfl

/-- A call by reference takes the parameters of its descriptor, and the receiver if there is one. -/
theorem invoke_moves (hr : r.WellFormed) (kind : CallKind) {ref : MemberRef} (sig : Signature)
    (hdescriptor : ref.descriptor = sig.descriptor) (hparams : ∀ t ∈ sig.params, t.isVoid = false) :
    Emits r (Gen.instr (·.invoke kind ref))
      (·.Moves r (sig.params.length + if kind = .static then 0 else 1) sig.ret.values) := by
  have hsig : Signature.ofDescriptor? ref.descriptor = some sig.erased := by
    rw [hdescriptor, Signature.ofDescriptor?_descriptor hparams]
  have hvalues : sig.ret.erased.values = sig.ret.values := by simp [Ty.values, Ty.isVoid_erased]
  have hread : ∀ {i : UInt16}, r.constants.methodRef? i = some ref →
      (Instr.invoke kind i).moves? r.constants =
        some (sig.params.length + if kind = .static then 0 else 1, sig.ret.values) := by
    intro i hi
    simp [Instr.moves?, hi, hsig, hvalues, Signature.erased]
  refine .naming (.method ref) (fun _ => rfl) fun p hlater => Block.moves_one ?_ fun _ => rfl
  cases href : r.constants.methodRef? (p.put (.method ref)).1 with
  | some ref' =>
    rw [Pool.methodRef?_of_later hr hlater href] at href
    exact .inl (hread href)
  | none =>
    cases hover : r.overflowed with
    | true => exact .inr ⟨hover, by simp [Instr.moves?, href]⟩
    | false =>
      have hhas : r.constants.methodRef? (p.put (.method ref)).1 = some ref :=
        Pool.has_of_put (.method ref) ⟨r, hlater, hr, hover, rfl⟩
      exact .inl (hread hhas)

/-- A widening turns one value into another. -/
theorem Block.Moves.widenTo {code : Block} (h : code.Moves r 0 1) (t s : Ty) :
    (ClassTree.widenTo t (code, s)).Moves r 0 1 := by
  rw [ClassTree.widenTo]
  split
  · exact h.step (.inl rfl) (fun _ => rfl) (Nat.le_refl 1) rfl
  · exact h

end Instructions

end ClassTree
