import ClassTree.Proofs.CallFree.Semantics
import ClassTree.Proofs.Descriptor
import ClassTree.Proofs.Double
import ClassTree.Proofs.Typing.Fold

/-!
# Operators on values of known types

`Value.HasType texts v t`: the value is of the kind that the static type says; if `texts`, one of type `String` is not null.
On numbers of known types an operator gives the same whether they are widened beforehand or not (`operator_promoted`), and
its result is of the type that the operator has (`operator_hasType`).
-/

namespace ClassTree

theorem Run.eq_ok_of_ask {α : Type} {f : Heap → Except RuntimeError α} {a : α} {m m' : Machine}
    (h : Run.ask f m = .ok a m') : f m.heap = .ok a := by
  cases hf : f m.heap with
  | ok b =>
    rw [ask_eq_ok hf] at h
    cases h
    rfl
  | error e =>
    rw [ask_eq_error hf] at h
    cases h

/-! ## Values and their types -/

namespace Value

/-- The value is of the kind that the type says; if `texts`, a text is not null. -/
def HasType (texts : Bool) (v : Value) : Ty → Prop
  | .boolean => ∃ b, v = .bool b
  | .int => ∃ n, v = .int n
  | .long => ∃ n, v = .long n
  | .double => ∃ d, v = .double d
  | .void | .null => v.number? = none
  | .ref name => v.number? = none ∧ (texts = true → name = .string → ∃ s, v = .str s)

/-- A number as one of a wider type. -/
def promoted (v : Value) (t : Ty) : Value :=
  match v, t with
  | .int n, .long => .long n.toInt64
  | .int n, .double => .double (.ofInt n.toInt)
  | .long n, .double => .double (.ofInt n.toInt)
  | v, _ => v

variable {texts : Bool} {a b v : Value} {l r t u : Ty}

/-- What is not widened stays as it is. -/
theorem HasType.promoted_of_none (h : v.HasType texts t) (hw : Widening.between? t u = none) : v.promoted u = v := by
  have hnone : v.number? = none → v.promoted u = v := by
    intro hv
    cases v <;> first | rfl | cases hv
  cases t with
  | void | null => exact hnone h
  | ref name => exact hnone h.1
  | boolean =>
    obtain ⟨b, rfl⟩ := h
    rfl
  | int =>
    obtain ⟨n, rfl⟩ := h
    cases u <;> first | rfl | cases hw
  | long =>
    obtain ⟨n, rfl⟩ := h
    cases u <;> first | rfl | cases hw
  | double =>
    obtain ⟨d, rfl⟩ := h
    rfl

/-- Widening a value of a type never fails. -/
theorem HasType.widen_eq (h : v.HasType texts t) (u : Ty) : v.widen u t = pure (v.promoted u) := by
  cases hw : Widening.between? t u with
  | none => rw [h.promoted_of_none hw, Value.widen, hw]
  | some w =>
    cases t <;> cases u <;> cases hw <;> obtain ⟨n, rfl⟩ := h <;> rfl

/-- A value that is stored without being widened is of the type of the variable. -/
theorem HasType.of_isAssignable {reg : Registry} (h : v.HasType texts t) (hassign : reg.isAssignable t u = true)
    (hw : Widening.between? t u = none) (htext : texts = true → u.isString = true → t = .string) : v.HasType texts u := by
  unfold Registry.isAssignable Registry.conversionCost at hassign
  split at hassign
  · cases hassign
  · split at hassign
    · rename_i heq
      exact heq ▸ h
    · split at hassign
      · cases hw
      · cases hw
      · cases hw
      · exact ⟨h, fun htexts hname => nomatch htext htexts (by simp [Ty.isString, hname])⟩
      · rename_i sub sup hne
        refine ⟨h.1, fun htexts hname => ?_⟩
        have heq := htext htexts (by simp [Ty.isString, hname])
        exact absurd (heq.trans (by rw [hname])) hne
      · cases hassign

end Value

/-! ## Operators on numbers -/

section Numbers

open Value

variable {texts : Bool} {a b : Value} {l r t : Ty}

/-- Two numbers of known types, which the operator works on as numbers of the wider one. -/
theorem exists_numbers (ha : a.HasType texts l) (hb : b.HasType texts r) (hp : l.promote r = some t) :
    ∃ x y : Number, a.number? = some x ∧ b.number? = some y ∧
      ∃ x' y' : Number, (a.promoted t).number? = some x' ∧ (b.promoted t).number? = some y' ∧ x'.pair y' = x.pair y := by
  cases l <;> cases r <;> cases hp <;> obtain ⟨x, rfl⟩ := ha <;> obtain ⟨y, rfl⟩ := hb <;>
    exact ⟨_, _, rfl, rfl, _, _, rfl, rfl, rfl⟩

theorem looseEq_promoted (ha : a.HasType texts l) (hb : b.HasType texts r) (hp : l.promote r = some t) :
    (a.promoted t).looseEq (b.promoted t) = a.looseEq b := by
  -- Only an `int` and a `long` are compared in different ways: as `long` numbers, or as doubles.
  have hmixed : ∀ (x : Int32) (y : Int64), decide (x.toInt64 = y) = (Double.ofInt x.toInt).equal (.ofInt y.toInt) := by
    intro x y
    rw [Bool.eq_iff_iff, decide_eq_true_eq, Double.equal_ofInt_iff]
  cases l <;> cases r <;> cases hp <;> obtain ⟨x, rfl⟩ := ha <;> obtain ⟨y, rfl⟩ := hb <;> try rfl
  · exact hmixed x y
  · change decide (x = y.toInt64) = (Double.ofInt x.toInt).equal (.ofInt y.toInt)
    rw [Double.equal_comm, ← hmixed y x]
    exact decide_eq_decide.2 eq_comm

/-- Arithmetic on numbers gives a number of the wider type. -/
theorem arith_hasType {h : Heap} {op : ArithOp} {w : Value} (ha : a.HasType texts l) (hb : b.HasType texts r)
    (hp : l.promote r = some t) (hw : h.arith op a b = .ok w) : w.HasType texts t := by
  have hints : ∀ {x y : Int32}, op.onInts x y = .ok w → w.HasType texts .int := by
    intro x y hxy
    unfold ArithOp.onInts at hxy
    split at hxy <;> (try split at hxy) <;> cases hxy <;> exact ⟨_, rfl⟩
  have hlongs : ∀ {x y : Int64}, op.onLongs x y = .ok w → w.HasType texts .long := by
    intro x y hxy
    unfold ArithOp.onLongs at hxy
    split at hxy <;> (try split at hxy) <;> cases hxy <;> exact ⟨_, rfl⟩
  have hdoubles : ∀ {x y : Double}, Except.ok (.double (op.onDoubles x y)) = Except.ok (ε := RuntimeError) w →
      w.HasType texts .double := by
    intro x y hxy
    cases hxy
    exact ⟨_, rfl⟩
  cases l <;> cases r <;> cases hp <;> obtain ⟨x, rfl⟩ := ha <;> obtain ⟨y, rfl⟩ := hb <;>
    first | exact hints hw | exact hlongs hw | exact hdoubles hw

theorem compare_hasType {h : Heap} {op : CompareOp} {w : Value} (hw : h.compare op a b = .ok w) :
    w.HasType texts .boolean := by
  cases op with
  | eq | ne =>
    cases hw
    exact ⟨_, rfl⟩
  | lt | le | gt | ge =>
    obtain ⟨pair, -, hpair⟩ := bind_eq_ok.1 hw
    cases hpair
    exact ⟨_, rfl⟩

/-- Arithmetic on numbers joins no texts. -/
theorem arithmetic_of_numbers {x y : Number} (hx : a.number? = some x) (hy : b.number? = some y)
    (render : Value → Run String) (op : ArithOp) : arithmetic render op a b = Run.ask (·.arith op a b) := by
  cases a <;> cases hx <;> cases b <;> cases hy <;> cases op <;> rfl

/-- An operator gives the same whether its operands are widened beforehand or not. -/
theorem operator_promoted {op : BinaryOp} {i : Instr} (hop : op.instr? = some i) (ha : a.HasType texts l)
    (hb : b.HasType texts r) (hp : l.promote r = some t) (render : Value → Run String) :
    i.operator render (a.promoted t) (b.promoted t) = i.operator render a b := by
  obtain ⟨x, y, hx, hy, x', y', hx', hy', hpair⟩ := exists_numbers ha hb hp
  have hoperands : ∀ h : Heap, h.operands (a.promoted t) (b.promoted t) = h.operands a b := by
    intro h
    simp only [Heap.operands, hx, hy, hx', hy', hpair]
  have hloose := looseEq_promoted ha hb hp
  cases op <;> cases hop
  case add | sub | mul | div | rem =>
    simp only [Instr.operator, arithmetic_of_numbers hx hy, arithmetic_of_numbers hx' hy', Heap.arith, hoperands]
  all_goals simp only [Instr.operator, Heap.compare, hoperands, hloose]

/-- The result of an operator on numbers is of the type that the operator has. -/
theorem operator_hasType {op : BinaryOp} {i : Instr} {render : Value → Run String} {m m' : Machine} {w : Value}
    (hop : op.instr? = some i) (ha : a.HasType texts l) (hb : b.HasType texts r) (hp : l.promote r = some t)
    (hw : i.operator render a b m = .ok w m') : w.HasType texts (Literal.folded op t) := by
  obtain ⟨x, y, hx, hy, -⟩ := exists_numbers ha hb hp
  cases op <;> cases hop <;> simp only [Instr.operator, arithmetic_of_numbers hx hy] at hw
  case add | sub | mul | div | rem => exact arith_hasType ha hb hp (Run.eq_ok_of_ask hw)
  all_goals exact compare_hasType (Run.eq_ok_of_ask hw)

end Numbers

/-! ## Conversions -/

namespace Heap

variable {h : Heap} {texts : Bool} {v w : Value} {t : Ty}

/-- A conversion to a declared type widens numbers anyway. -/
theorem coerce_promoted (h : Heap) (v : Value) (t : Ty) : h.coerce (v.promoted t) t.erased = h.coerce v t.erased := by
  cases t <;> cases v <;> rfl

/-- A reference that was converted is no number. -/
theorem number?_of_referenceCost {name : Name} (hcost : (h.referenceCost v (.ref name)).isSome = true) :
    v.number? = none := by
  cases v <;> first | rfl | cases hcost

/-- What is converted to a declared type is of this type. -/
theorem hasType_of_coerce (ht : t.isVoid = false) (hw : h.coerce v t.erased = .ok w)
    (htext : texts = true → t.isString = true → ∃ s, v = .str s) : w.HasType texts t := by
  have href : ∀ {name : Name}, h.coerce v (.ref name) = .ok w → w = v ∧ v.number? = none := by
    intro name hname
    have hcoerce : h.coerce v (.ref name) = if (h.referenceCost v (.ref name)).isSome then .ok v
        else .error (h.mismatch (Ty.ref name).text v) := by
      cases v <;> rfl
    rw [hcoerce] at hname
    split at hname
    · rename_i hcost
      cases hname
      exact ⟨rfl, number?_of_referenceCost hcost⟩
    · cases hname
  cases t with
  | void => cases ht
  | null =>
    obtain ⟨rfl, hnone⟩ := href hw
    exact hnone
  | ref name =>
    obtain ⟨rfl, hnone⟩ := href hw
    exact ⟨hnone, fun htexts hname => htext htexts (by simp [Ty.isString, hname])⟩
  | boolean | int | long | double => cases v <;> cases hw <;> exact ⟨_, rfl⟩

end Heap

end ClassTree
