import ClassTree.Proofs.Compile.Makes
import ClassTree.Proofs.Machine.Steps
import ClassTree.Proofs.Scalar.Folding

/-!
# Code follows the evaluation

`Simulates t ret n f x Q`: begun at the frame `f`, the machine does what the evaluation with the result `x` says. Where the
evaluation goes on, the machine comes to a frame with `Q`; where it returns or divides by zero, so does the machine; and
where it would take more than `n` rounds of a loop, the machine takes `n` steps at least.

`Models scope env locals`: the local slots hold what the evaluation knows of the variables that are visible. Operators give
what the evaluation says once their operands are widened (`computes_binary`).
-/

namespace ClassTree

open Run

/-! ## Results of evaluations and runs -/

/-- The machine, begun at a frame of a method, does what the result of an evaluation says. -/
def Simulates {α : Type} (t : Target) (ret : Ty) (n : Nat) (f : Frame) (x : Except Stop α) (Q : α → Frame → Prop) : Prop :=
  match x with
  | .ok a => ∃ k g, Steps k f g ∧ Q a g
  | .error (.returned v) => ∃ k g, Steps k f g ∧ Returning g v.value ∧ g.target = t ∧ v.ty = ret
  | .error .divisionByZero => ∃ k, Fails k f .divisionByZero
  | .error .outOfFuel => ∃ k g, n ≤ k ∧ Steps k f g
  | .error .stuck => False

namespace Simulates

variable {α β : Type} {t : Target} {ret : Ty} {n : Nat} {f g : Frame} {Q : α → Frame → Prop} {R : β → Frame → Prop}

theorem pure {a : α} (h : Q a f) : Simulates t ret n f (Pure.pure a) Q := ⟨0, f, .refl f, h⟩

/-- The machine may take steps first. -/
theorem of_steps {k : Nat} {x : Except Stop α} (hk : Steps k f g) (h : Simulates t ret n g x Q) :
    Simulates t ret (k + n) f x Q := by
  match x with
  | .ok a =>
    obtain ⟨j, g', hj, hQ⟩ := h
    exact ⟨k + j, g', hk.trans hj, hQ⟩
  | .error (.returned v) =>
    obtain ⟨j, g', hj, hv⟩ := h
    exact ⟨k + j, g', hk.trans hj, hv⟩
  | .error .divisionByZero =>
    obtain ⟨j, hj⟩ := h
    exact ⟨k + j, .of_steps hk hj⟩
  | .error .outOfFuel =>
    obtain ⟨j, g', hle, hj⟩ := h
    exact ⟨k + j, g', by omega, hk.trans hj⟩
  | .error .stuck => exact h

theorem of_le {m : Nat} {x : Except Stop α} (hm : m ≤ n) (h : Simulates t ret n f x Q) : Simulates t ret m f x Q := by
  match x with
  | .ok a => exact h
  | .error (.returned v) => exact h
  | .error .divisionByZero => exact h
  | .error .outOfFuel =>
    obtain ⟨j, g', hle, hj⟩ := h
    exact ⟨j, g', by omega, hj⟩
  | .error .stuck => exact h

theorem step {k : Nat} {x : Except Stop α} (hk : Steps k f g) (h : Simulates t ret n g x Q) : Simulates t ret n f x Q :=
  (of_steps hk h).of_le (Nat.le_add_left n k)

theorem bind {x : Except Stop α} {k : α → Except Stop β} (hx : Simulates t ret n f x Q)
    (hk : ∀ a g, Q a g → Simulates t ret n g (k a) R) : Simulates t ret n f (x >>= k) R := by
  match x with
  | .ok a =>
    obtain ⟨j, g, hj, hQ⟩ := hx
    exact step hj (hk a g hQ)
  | .error (.returned v) => exact hx
  | .error .divisionByZero => exact hx
  | .error .outOfFuel => exact hx
  | .error .stuck => exact hx

/-- Where the evaluation goes on, the machine may take further steps. -/
theorem followed {Q' : α → Frame → Prop} {x : Except Stop α} (hx : Simulates t ret n f x Q)
    (h : ∀ a g, Q a g → ∃ k g', Steps k g g' ∧ Q' a g') : Simulates t ret n f x Q' := by
  match x with
  | .ok a =>
    obtain ⟨k, g, hk, hQ⟩ := hx
    obtain ⟨j, g', hj, hQ'⟩ := h a g hQ
    exact ⟨k + j, g', hk.trans hj, hQ'⟩
  | .error (.returned v) => exact hx
  | .error .divisionByZero => exact hx
  | .error .outOfFuel => exact hx
  | .error .stuck => exact hx

/-- What is needed is there. -/
theorem need {o : Option α} {a : α} {k : α → Except Stop β} (ho : o = some a) (h : Simulates t ret n f (k a) R) :
    Simulates t ret n f (Stop.need o >>= k) R := by
  rw [ho]
  exact h

end Simulates

/-! ## Variables -/

/-- What the evaluation knows of a variable is what stands in its slot. -/
structure Holds (locals : Array Value) (v : Local) (b : Var) : Prop where
  name : b.name = v.name
  ty : b.ty = v.ty
  typed : b.value.ty = v.ty
  value : locals[v.slot.toNat]? = some b.value.value

/-- A value that is stored in another slot does not matter. -/
theorem Holds.store_ne {locals : Array Value} {v : Local} {b : Var} (h : Holds locals v b) {i : Nat}
    (hne : i ≠ v.slot.toNat) (w : Value) : Holds (locals.setIfInBounds i w) v b :=
  ⟨h.name, h.ty, h.typed, by rw [Array.getElem?_setIfInBounds_ne hne]; exact h.value⟩

/-- The variables that a scope shows are those that the evaluation knows, and their slots hold their values. -/
def Models (scope : Scope) (env : Env) (locals : Array Value) : Prop :=
  ∃ ls, scope.Shows ls ∧ List.Forall₂ (Holds locals) ls env

namespace Models

variable {scope scope' : Scope} {env : Env} {locals : Array Value}

theorem exists_get? {ls : List Local} (h : List.Forall₂ (Holds locals) ls env) {x : String} {v : Local}
    (hv : ls.find? (·.name = x) = some v) : ∃ b, env.get? x = some b ∧ Holds locals v b := by
  induction h with
  | nil => cases hv
  | @cons a b ls env hab _ ih =>
    by_cases ha : a.name = x
    · rw [List.find?_cons_of_pos (by simpa using ha)] at hv
      cases hv
      exact ⟨b, by simp [Env.get?, hab.name, ha], hab⟩
    · rw [List.find?_cons_of_neg (by simpa using ha)] at hv
      obtain ⟨c, hc, hold⟩ := ih hv
      refine ⟨c, ?_, hold⟩
      rw [Env.get?, List.find?_cons_of_neg (by simpa [hab.name] using ha)]
      exact hc

theorem get? (h : Models scope env locals) {x : String} {v : Local} (hv : scope.lookup? x = some v) :
    ∃ b, env.get? x = some b ∧ Holds locals v b := by
  obtain ⟨ls, hls, hall⟩ := h
  rw [hls.lookup] at hv
  exact exists_get? hall hv

theorem forall₂_set {ls : List Local} (h : List.Forall₂ (Holds locals) ls env) (hnames : (ls.map Local.name).Nodup)
    (hslots : ls.Pairwise fun a b => b.slot.toNat < a.slot.toNat) {x : String} {v : Local}
    (hv : ls.find? (·.name = x) = some v) {w : Scalar} (hw : w.ty = v.ty) :
    List.Forall₂ (Holds (locals.setIfInBounds v.slot.toNat w.value)) ls (env.set x w) := by
  induction h with
  | nil => cases hv
  | @cons a b ls env hab hall ih =>
    rw [List.map_cons, List.nodup_cons] at hnames
    obtain ⟨hlt, hslots⟩ := List.pairwise_cons.1 hslots
    rw [Env.set]
    by_cases ha : a.name = x
    · rw [List.find?_cons_of_pos (by simpa using ha)] at hv
      cases hv
      rw [if_pos (hab.name.trans ha)]
      have hin : v.slot.toNat < locals.size := (Array.getElem?_eq_some_iff.1 hab.value).1
      refine .cons ⟨hab.name, hab.ty, hw, ?_⟩ ?_
      · exact Array.getElem?_setIfInBounds_self_of_lt hin
      · refine ((List.forall₂_and_left ls env).2 ⟨hlt, hall⟩).imp fun c d h => ?_
        exact h.2.store_ne (by have := h.1; omega) _
    · rw [List.find?_cons_of_neg (by simpa using ha)] at hv
      rw [if_neg (by rwa [hab.name])]
      have hne : v.slot.toNat ≠ a.slot.toNat := by
        have := hlt v (List.mem_of_find?_eq_some hv)
        omega
      exact .cons (hab.store_ne hne _) (ih hnames.2 hslots hv)

/-- A value of its type is stored in the slot of a variable. -/
theorem set (h : Models scope env locals) {x : String} {v : Local} (hv : scope.lookup? x = some v) {w : Scalar}
    (hw : w.ty = v.ty) : Models scope (env.set x w) (locals.setIfInBounds v.slot.toNat w.value) := by
  obtain ⟨ls, hls, hall⟩ := h
  rw [hls.lookup] at hv
  exact ⟨ls, hls, forall₂_set hall hls.names hls.slots hv hw⟩

/-- A variable is declared with a value of its type. -/
theorem declare (h : Models scope env locals) {x : String} {ty : Ty} {slot : UInt16}
    (hd : scope.declare x ty = (.ok slot, scope')) {w : Scalar} (hw : w.ty = ty) (hslot : slot.toNat < locals.size) :
    Models scope' (⟨x, ty, w⟩ :: env) (locals.setIfInBounds slot.toNat w.value) := by
  obtain ⟨ls, hls, hall⟩ := h
  refine ⟨_, hls.declare hd, .cons ⟨rfl, rfl, hw, Array.getElem?_setIfInBounds_self_of_lt hslot⟩ ?_⟩
  have heq := (Scope.declare_eq_ok hd).2.1
  refine ((List.forall₂_and_left ls env).2 ⟨hls.slot_lt, hall⟩).imp fun v b h => h.2.store_ne ?_ _
  have hlt := h.1
  omega

theorem enter (h : Models scope env locals) : Models scope.enter env locals := by
  obtain ⟨ls, hls, hall⟩ := h
  exact ⟨ls, hls.enter, hall⟩

theorem of_adds (h : Models scope env locals) (hadds : scope.Adds [] scope') : Models scope' env locals := by
  obtain ⟨ls, hls, hall⟩ := h
  exact ⟨ls, hadds.visible ls hls, hall⟩

/-- The end of a block takes away as many variables as were declared in it. -/
theorem leave {inner : Env} {locals' : Array Value} {news : List Local} (h : Models scope env locals)
    (hadds : scope.enter.Adds news scope') (h' : Models scope' inner locals') :
    Models scope (env.leave inner) locals' := by
  obtain ⟨ls, hls, hall⟩ := h
  obtain ⟨ls', hls', hall'⟩ := h'
  obtain rfl := hls'.unique (hadds.visible ls hls.enter)
  refine ⟨ls, hls, ?_⟩
  have hlen : inner.length - env.length = news.length := by
    rw [← hall'.length_eq, ← hall.length_eq, List.length_append]
    omega
  rw [Env.leave, hlen]
  have hdrop := List.forall₂_drop news.length hall'
  rwa [List.drop_left] at hdrop

end Models

/-! ## Operators -/

/-- The machine's operator gives what the evaluation says. -/
def Gives (x : Except Stop Scalar) (y : Except RuntimeError Value) : Prop :=
  match x with
  | .ok v => y = .ok v.value
  | .error .divisionByZero => y = .error .divisionByZero
  | .error _ => False

theorem BinaryOp.isOperator_instr? {op : BinaryOp} {i : Instr} (h : op.instr? = some i) : i.isOperator = true := by
  cases op <;> cases h <;> rfl

/-- The instruction gives what the evaluation says of two operands, whatever the heap is. -/
def Instr.Computes (i : Instr) (x : Except Stop Scalar) (a b : Scalar) : Prop :=
  ∃ f, (∀ render, i.operator render a.value b.value = Run.ask f) ∧ ∀ heap, Gives x (f heap)

section Operators

variable {op : BinaryOp} {i : Instr}

theorem computes_ints (h : op.instr? = some i) (a b : Int32) :
    i.Computes (Scalar.onInts op a b) (.int a) (.int b) := by
  cases op <;> cases h
  case add | sub | mul => exact ⟨fun h => h.arith _ (.int a) (.int b), fun _ => rfl, fun _ => rfl⟩
  case div | rem =>
    refine ⟨fun h => h.arith _ (.int a) (.int b), fun _ => rfl, fun _ => ?_⟩
    rw [Scalar.onInts]
    split
    · rename_i hb
      exact if_pos hb
    · rename_i hb
      exact if_neg hb
  case eq | ne =>
    refine ⟨fun h => h.compare _ (.int a) (.int b), fun _ => rfl, fun _ => ?_⟩
    refine congrArg (fun b => Except.ok (Value.bool b)) (Bool.eq_iff_iff.2 ?_)
    simp [Value.looseEq, Value.number?]
  all_goals
    refine ⟨fun h => h.compare _ (.int a) (.int b), fun _ => rfl, fun _ => ?_⟩
    refine congrArg (fun b => Except.ok (Value.bool b)) (Bool.eq_iff_iff.2 ?_)
    simp only [CompareOp.holds, NumberPair.compare?, Number.pair, Option.some.injEq, Std.compare_eq_lt,
      Std.compare_eq_gt, Std.compare_eq_iff_eq, Int32.lt_iff_toInt_lt, Int32.le_iff_toInt_le, Bool.or_eq_true,
      decide_eq_true_eq]
  -- Of the comparisons only those that hold of equal numbers too are left.
  all_goals omega

theorem computes_longs (h : op.instr? = some i) (a b : Int64) :
    i.Computes (Scalar.onLongs op a b) (.long a) (.long b) := by
  cases op <;> cases h
  case add | sub | mul => exact ⟨fun h => h.arith _ (.long a) (.long b), fun _ => rfl, fun _ => rfl⟩
  case div | rem =>
    refine ⟨fun h => h.arith _ (.long a) (.long b), fun _ => rfl, fun _ => ?_⟩
    rw [Scalar.onLongs]
    split
    · rename_i hb
      exact if_pos hb
    · rename_i hb
      exact if_neg hb
  case eq | ne =>
    refine ⟨fun h => h.compare _ (.long a) (.long b), fun _ => rfl, fun _ => ?_⟩
    refine congrArg (fun b => Except.ok (Value.bool b)) (Bool.eq_iff_iff.2 ?_)
    simp [Value.looseEq, Value.number?]
  all_goals
    refine ⟨fun h => h.compare _ (.long a) (.long b), fun _ => rfl, fun _ => ?_⟩
    refine congrArg (fun b => Except.ok (Value.bool b)) (Bool.eq_iff_iff.2 ?_)
    simp only [CompareOp.holds, NumberPair.compare?, Number.pair, Option.some.injEq, Std.compare_eq_lt,
      Std.compare_eq_gt, Std.compare_eq_iff_eq, Int64.lt_iff_toInt_lt, Int64.le_iff_toInt_le, Bool.or_eq_true,
      decide_eq_true_eq]
  -- Of the comparisons only those that hold of equal numbers too are left.
  all_goals omega

theorem computes_bools (h : op.instr? = some i) (hop : op.isEquality = true) (a b : Bool) :
    i.Computes (Scalar.binary op (.bool a) (.bool b)) (.bool a) (.bool b) := by
  cases op <;> cases h <;> first
    | (cases hop; done)
    | exact ⟨fun h => h.compare _ (.bool a) (.bool b), fun _ => rfl, fun _ => by cases a <;> cases b <;> rfl⟩

/-- What an operand is widened to. -/
def Scalar.operand? (v : Scalar) : Option Ty → Option Scalar
  | some t => v.widen? t
  | none => some v

/-- The operands of an operator after they were widened, and what it gives. -/
theorem computes_binary {c : Context} {bt : BinaryTyping} {a b : Scalar} (h : op.instr? = some i)
    (hbt : c.binary op a.ty b.ty = .ok bt) :
    bt.isConcat = false ∧ (∀ v, Scalar.binary op a b = .ok v → v.ty = bt.result) ∧
      ∃ a' b', a.operand? bt.operand = some a' ∧ b.operand? bt.operand = some b' ∧
        i.Computes (Scalar.binary op a b) a' b' := by
  have hints : ∀ {x y : Int32} {v : Scalar}, Scalar.onInts op x y = .ok v → v.ty = Literal.folded op .int := by
    intro x y v hv
    cases op
    case div | rem =>
      rw [Scalar.onInts] at hv
      split at hv <;> cases hv
      rfl
    all_goals (cases hv <;> rfl)
  have hlongs : ∀ {x y : Int64} {v : Scalar}, Scalar.onLongs op x y = .ok v → v.ty = Literal.folded op .long := by
    intro x y v hv
    cases op
    case div | rem =>
      rw [Scalar.onLongs] at hv
      split at hv <;> cases hv
      rfl
    all_goals (cases hv <;> rfl)
  cases a with
  | bool x =>
    cases b with
    | bool y =>
      have hop : op.isEquality = true := by
        cases op <;> first | rfl | (cases hbt; done) | cases h
      have heq : bt = ⟨none, .boolean, false⟩ := by
        cases op <;> first | (cases hop; done) | (cases hbt; rfl)
      subst heq
      refine ⟨rfl, fun v hv => ?_, _, _, rfl, rfl, computes_bools h hop x y⟩
      cases op <;> first | (cases hop; done) | (cases hv; rfl)
    | int y | long y => cases op <;> cases hbt
  | int x =>
    cases b with
    | bool y => cases op <;> cases hbt
    | int y =>
      obtain rfl := Context.binary_of_promote (t := .int) hbt rfl
      exact ⟨rfl, fun v hv => hints hv, .int x, .int y, rfl, rfl, computes_ints h x y⟩
    | long y =>
      obtain rfl := Context.binary_of_promote (t := .long) hbt rfl
      exact ⟨rfl, fun v hv => hlongs hv, .long x.toInt64, .long y, rfl, rfl, computes_longs h x.toInt64 y⟩
  | long x =>
    cases b with
    | bool y => cases op <;> cases hbt
    | int y =>
      obtain rfl := Context.binary_of_promote (t := .long) hbt rfl
      exact ⟨rfl, fun v hv => hlongs hv, .long x, .long y.toInt64, rfl, rfl, computes_longs h x y.toInt64⟩
    | long y =>
      obtain rfl := Context.binary_of_promote (t := .long) hbt rfl
      exact ⟨rfl, fun v hv => hlongs hv, .long x, .long y, rfl, rfl, computes_longs h x y⟩

end Operators

/-- A scalar that may stand where a scalar type is expected can be widened to it. -/
theorem Scalar.exists_widen? {r : Registry} {v : Scalar} {t : Ty} (ht : t.isScalar = true)
    (h : r.isAssignable v.ty t = true) : ∃ w, v.widen? t = some w := by
  cases v <;> cases t <;> first | (cases ht; done) | exact ⟨_, rfl⟩ | cases h

/-- Widening a scalar takes an instruction only from `int` to `long`. -/
theorem Scalar.widen?_cases {v w : Scalar} {t : Ty} (h : v.widen? t = some w) :
    w.ty = t ∧ (w = v ∧ Widening.between? v.ty t = none ∨
      ∃ n : Int32, v = .int n ∧ w = .long n.toInt64 ∧ Widening.between? v.ty t = some .i2l) := by
  cases v with
  | int n =>
    cases t with
    | long => cases h; exact ⟨rfl, .inr ⟨n, rfl, rfl, rfl⟩⟩
    | int => cases h; exact ⟨rfl, .inl ⟨rfl, rfl⟩⟩
    | _ => cases h
  | bool b =>
    cases t with
    | boolean => cases h; exact ⟨rfl, .inl ⟨rfl, rfl⟩⟩
    | _ => cases h
  | long n =>
    cases t with
    | long => cases h; exact ⟨rfl, .inl ⟨rfl, rfl⟩⟩
    | _ => cases h

end ClassTree
