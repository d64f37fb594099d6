import ClassTree.Proofs.CallFree.Code
import ClassTree.Proofs.CallFree.Values

/-!
# Meanings with and without types agree

`Run.Agree lax R x y`: the computation `y` does what `x` does, with results that `R` relates; if `lax`, it may fail instead
because an operand is no number. What a body without calls means where types are known and where they are not agrees, if
every variable gets values of its own type alone (`Stmt.perform_agree`). Only a text that is null makes a difference: `+`
joins it if its type says that it is a text, but takes it for an operand that is no number if nothing is known about it.
-/

namespace ClassTree

open Run

/-! ## What variables get -/

/-- Whether a variable of a type gets a value of the same type if it gets one of the source type: no number is widened, and,
if `texts`, a text variable gets a text. There is no source type if a variable is declared without a value. -/
def Ty.takes (texts : Bool) (ty : Ty) (source : Option Ty) : Bool :=
  (source.bind (Widening.between? · ty)).isNone && (!texts || !ty.isString || source == some .string)

/-- Whether the variables that an expression assigns get values of their own types. -/
def Expr.storesExactly (texts : Bool) (c : Context) (scope : Scope) : Expr → Bool
  | .assign (.var x) e =>
    e.storesExactly texts c scope && match scope.lookup? x with
      | some v => v.ty.takes texts (c.typeOf scope e).toOption
      | none => true
  | .binary _ l r => l.storesExactly texts c scope && r.storesExactly texts c scope
  | .unary _ e => e.storesExactly texts c scope
  | _ => true

namespace Stmt

mutual

/-- Whether the variables that a statement declares or assigns get values of their own types. -/
def storesExactly (texts : Bool) (c : Context) : Stmt → Scope → Bool
  | .block stmts, scope => storesAllExactly texts c stmts scope.enter
  | .decl _ ty none, _ => ty.takes texts none
  | .decl _ ty (some e), scope => e.storesExactly texts c scope && ty.takes texts (c.typeOf scope e).toOption
  | .expr e, scope => e.storesExactly texts c scope
  | .ret none, _ => true
  | .ret (some e), scope => e.storesExactly texts c scope
  | .cond test t none, scope => test.storesExactly texts c scope && t.storesExactly texts c scope.enter
  | .cond test t (some e), scope =>
    test.storesExactly texts c scope && t.storesExactly texts c scope.enter &&
      e.storesExactly texts c (t.after scope.enter).pop.enter
  | .loop test body, scope => test.storesExactly texts c scope && body.storesExactly texts c scope.enter
  | .superCall _, _ => true

def storesAllExactly (texts : Bool) (c : Context) : List Stmt → Scope → Bool
  | [], _ => true
  | x :: rest, scope => x.storesExactly texts c scope && storesAllExactly texts c rest (x.after scope)

end

end Stmt

theorem Value.HasType.of_takes {texts : Bool} {reg : Registry} {v : Value} {t u : Ty} (h : v.HasType texts t)
    (hassign : reg.isAssignable t u = true) (htakes : u.takes texts (some t) = true) :
    Widening.between? t u = none ∧ v.HasType texts u := by
  simp only [Ty.takes, Option.bind_some, Bool.and_eq_true, Option.isNone_iff_eq_none, Bool.or_eq_true,
    Bool.not_eq_true', beq_iff_eq, Option.some.injEq] at htakes
  obtain ⟨hw, htext⟩ := htakes
  refine ⟨hw, h.of_isAssignable hassign hw fun htexts hstring => ?_⟩
  rcases htext with (hno | hno) | heq
  · rw [hno] at htexts
    cases htexts
  · rw [hno] at hstring
    cases hstring
  · exact heq

/-! ## Computations that agree -/

namespace Run

/-- The computation fails because an operand is no number. -/
def FailsOnOperands {α : Type} (x : Run α) (m : Machine) : Prop :=
  ∃ actual m', x m = .error (.failure (.typeMismatch "numeric operands" actual)) m'

/-- The second computation does what the first does; if `lax`, it may fail because an operand is no number. -/
def Agree {α : Type} (lax : Prop) (R : α → α → Prop) (x y : Run α) : Prop :=
  ∀ m, (match x m with
    | .ok a m' => ∃ b, y m = .ok b m' ∧ R a b
    | .error e m' => y m = .error e m') ∨ lax ∧ y.FailsOnOperands m

namespace Agree

variable {α β : Type} {lax : Prop} {R R' : α → α → Prop} {S : β → β → Prop} {x y : Run α}

theorem pure {a b : α} (h : R a b) : Agree lax R (Pure.pure a) (Pure.pure b) := fun _ => .inl ⟨b, rfl, h⟩

theorem throw (e : Halt) : Agree lax R (MonadExcept.throw e) (MonadExcept.throw e) := fun _ => .inl rfl

theorem bind {f g : α → Run β} (hx : Agree lax R x y) (hf : ∀ a b, R a b → Agree lax S (f a) (g b)) :
    Agree lax S (x >>= f) (y >>= g) := by
  intro m
  have hbind : ∀ (x : Run α) (f : α → Run β), (x >>= f) m = EStateM.bind x f m := fun _ _ => rfl
  unfold FailsOnOperands
  rw [hbind, hbind, EStateM.bind, EStateM.bind]
  rcases hx m with h | ⟨hlax, actual, m', h⟩
  · cases hxm : x m with
    | error e m' =>
      rw [hxm] at h
      rw [show y m = .error e m' from h]
      exact .inl rfl
    | ok a m' =>
      rw [hxm] at h
      obtain ⟨b, hb, hR⟩ := h
      rw [hb]
      exact hf a b hR m'
  · rw [h]
    exact .inr ⟨hlax, actual, m', rfl⟩

theorem mono (h : Agree lax R x y) (hR : ∀ a b, R a b → R' a b) : Agree lax R' x y := by
  intro m
  refine (h m).imp_left fun hm => ?_
  cases hx : x m with
  | error e m' =>
    rw [hx] at hm
    exact hm
  | ok a m' =>
    rw [hx] at hm
    obtain ⟨b, hb, hab⟩ := hm
    exact ⟨b, hb, hR a b hab⟩

/-- The rule for one and the same computation. -/
theorem same (h : ∀ m a m', x m = .ok a m' → R a a) : Agree lax R x x := by
  intro m
  left
  cases hx : x m with
  | error e m' => rfl
  | ok a m' => exact ⟨a, rfl, h m a m' hx⟩

/-- The rule for a question to the heap. -/
theorem ask {f : Heap → Except RuntimeError α} (h : ∀ heap a, f heap = .ok a → R a a) :
    Agree lax R (Run.ask f) (Run.ask f) :=
  same fun m a _ hm => h m.heap a (eq_ok_of_ask hm)

end Agree

end Run

/-! ## Operators -/

/-- An operand, widened to the type that the operator works on. -/
def BinaryTyping.promoted (bt : BinaryTyping) (v : Value) : Value :=
  match bt.operand with
  | some t => v.promoted t
  | none => v

theorem BinaryTyping.widen_eq (bt : BinaryTyping) {texts : Bool} {v : Value} {t : Ty} (h : v.HasType texts t) :
    bt.widen t v = pure (bt.promoted v) := by
  unfold widen promoted
  cases bt.operand with
  | none => rfl
  | some u => exact h.widen_eq u

theorem BinaryTyping.widen_unknown (t : Ty) (v : Value) : unknown.widen t v = pure v := rfl

theorem BinaryTyping.instr_unknown (i : Instr) : unknown.instr i = i := rfl

/-- What an operator that evaluates both operands works on. -/
theorem Context.binary_cases {c : Context} {op : BinaryOp} {i : Instr} {l r : Ty} {bt : BinaryTyping}
    (hop : op.instr? = some i) (h : c.binary op l r = .ok bt) :
    (op = .add ∧ (l = .string ∨ r = .string) ∧ bt = ⟨none, .string, true⟩) ∨
      (∃ t, l.promote r = some t ∧ bt = ⟨some t, Literal.folded op t, false⟩) ∨
      (op.isEquality = true ∧ bt = ⟨none, .boolean, false⟩) := by
  cases hp : l.promote r with
  | some t => exact .inr (.inl ⟨t, rfl, binary_of_promote h hp⟩)
  | none =>
    unfold binary at h
    simp only [hp] at h
    split at h
    · rename_i hadd
      simp only [Bool.and_eq_true, decide_eq_true_eq, Bool.or_eq_true, Ty.isString] at hadd
      split at h
      · cases h
      · cases h
        exact .inl ⟨hadd.1, hadd.2, rfl⟩
    · split at h
      · cases h
      · split at h
        · rename_i heq
          split at h
          · cases h
            exact .inr (.inr ⟨heq, rfl⟩)
          · cases h
        · cases op <;> cases hop <;> simp_all [BinaryOp.isArithmetic, BinaryOp.isOrdering, BinaryOp.isEquality]

section Operators

variable {texts : Bool} {a b : Value} {l r : Ty} (render : Value → Run String)

theorem concat_hasType {m m' : Machine} {w : Value} (h : concat render a b m = .ok w m') : w.HasType texts .string := by
  change EStateM.bind (render a) _ m = _ at h
  unfold EStateM.bind at h
  cases ha : render a m with
  | error e m₁ => rw [ha] at h; cases h
  | ok x m₁ =>
    rw [ha] at h
    change EStateM.bind (render b) _ m₁ = _ at h
    unfold EStateM.bind at h
    cases hb : render b m₁ with
    | error e m₂ => rw [hb] at h; cases h
    | ok y m₂ =>
      rw [hb] at h
      cases h
      exact ⟨rfl, fun _ _ => ⟨_, rfl⟩⟩

/-- `+` joins texts if it can see that one of its operands is a text, and fails otherwise. -/
theorem concat_agree (ha : a.HasType texts l) (hb : b.HasType texts r) (hstring : l = .string ∨ r = .string) :
    Agree (texts = false) (fun w w' => w = w' ∧ w.HasType texts .string) (concat render a b)
      (arithmetic render .add a b) := by
  by_cases htext : (∃ s, a = .str s) ∨ ∃ s, b = .str s
  · have hconcat : arithmetic render .add a b = concat render a b := by
      rcases htext with ⟨s, rfl⟩ | ⟨s, rfl⟩
      · rfl
      · cases a <;> rfl
    rw [hconcat]
    exact .same fun m w m' h => ⟨rfl, concat_hasType render h⟩
  · intro m
    right
    have hlax : texts = false := by
      rw [← Bool.not_eq_true]
      intro htexts
      refine htext ?_
      rcases hstring with rfl | rfl
      · exact .inl (ha.2 htexts rfl)
      · exact .inr (hb.2 htexts rfl)
    have harith : arithmetic render .add a b = Run.ask (·.arith .add a b) := by
      cases a <;> cases b <;> first | rfl | simp at htext
    have hoperands : a.number? = none ∨ b.number? = none := by
      rcases hstring with rfl | rfl
      · exact .inl ha.1
      · exact .inr hb.1
    refine ⟨hlax, m.heap.typeText a ++ " and " ++ m.heap.typeText b, m, ?_⟩
    rw [harith]
    apply ask_eq_error
    have hnone : m.heap.operands a b =
        .error (.typeMismatch "numeric operands" (m.heap.typeText a ++ " and " ++ m.heap.typeText b)) := by
      unfold Heap.operands
      rcases hoperands with h | h
      · rw [h]
      · rw [h]
        cases a.number? <;> rfl
    rw [Heap.arith, hnone]
    rfl

/-- An operator does the same with operands that are widened and with those that are not. -/
theorem operator_agree {c : Context} {op : BinaryOp} {i : Instr} {bt : BinaryTyping} (hop : op.instr? = some i)
    (hbt : c.binary op l r = .ok bt) (ha : a.HasType texts l) (hb : b.HasType texts r) :
    Agree (texts = false) (fun w w' => w = w' ∧ w.HasType texts bt.result)
      ((bt.instr i).operator render (bt.promoted a) (bt.promoted b)) (i.operator render a b) := by
  rcases Context.binary_cases hop hbt with ⟨rfl, hstring, rfl⟩ | ⟨t, hp, rfl⟩ | ⟨heq, rfl⟩
  · cases hop
    exact concat_agree render ha hb hstring
  · change Agree _ _ (i.operator render (a.promoted t) (b.promoted t)) _
    rw [operator_promoted hop ha hb hp]
    exact .same fun m w m' h => ⟨rfl, operator_hasType hop ha hb hp h⟩
  · change Agree _ _ (i.operator render a b) _
    cases op <;> cases heq <;> cases hop <;> simp only [Instr.operator] <;>
      exact .ask fun h w hw => ⟨rfl, compare_hasType hw⟩

end Operators

/-! ## Variables -/

/-- The slots of the variables that a scope shows hold values of their types. -/
def Slots.Typed (texts : Bool) (scope : Scope) (slots : Slots) : Prop :=
  ∃ ls, scope.Shows ls ∧ ∀ v ∈ ls, (slots v.slot.toNat).HasType texts v.ty

namespace Slots.Typed

variable {texts : Bool} {scope scope' : Scope} {slots : Slots}

theorem get (h : slots.Typed texts scope) {x : String} {v : Local} (hv : scope.lookup? x = some v) :
    (slots v.slot.toNat).HasType texts v.ty := by
  obtain ⟨ls, hls, hall⟩ := h
  exact hall v (hls.mem_of_lookup? hv).1

/-- A variable gets a value of its type. -/
theorem set (h : slots.Typed texts scope) {x : String} {v : Local} (hv : scope.lookup? x = some v) {w : Value}
    (hw : w.HasType texts v.ty) : Slots.Typed texts scope (Function.update slots v.slot.toNat w) := by
  obtain ⟨ls, hls, hall⟩ := h
  refine ⟨ls, hls, fun u hu => ?_⟩
  by_cases heq : u.slot.toNat = v.slot.toNat
  · rw [hls.eq_of_slot hu (hls.mem_of_lookup? hv).1 heq, Function.update_self]
    exact hw
  · rw [Function.update_of_ne heq]
    exact hall u hu

/-- A variable is declared with a value of its type. -/
theorem declare (h : slots.Typed texts scope) {x : String} {ty : Ty} {slot : UInt16}
    (hd : scope.declare x ty = (.ok slot, scope')) {w : Value} (hw : w.HasType texts ty) :
    Slots.Typed texts scope' (Function.update slots slot.toNat w) := by
  obtain ⟨ls, hls, hall⟩ := h
  refine ⟨_, hls.declare hd, fun v hv => ?_⟩
  rcases List.mem_cons.1 hv with rfl | hv
  · rw [Function.update_self]
    exact hw
  · have hlt := hls.slot_lt v hv
    have hslot := (Scope.declare_eq_ok hd).2.1
    rw [Function.update_of_ne (by omega)]
    exact hall v hv

theorem enter (h : slots.Typed texts scope) : slots.Typed texts scope.enter := by
  obtain ⟨ls, hls, hall⟩ := h
  exact ⟨ls, hls.enter, hall⟩

theorem of_adds (h : slots.Typed texts scope) (hadds : scope.Adds [] scope') : slots.Typed texts scope' := by
  obtain ⟨ls, hls, hall⟩ := h
  exact ⟨ls, hadds.visible ls hls, hall⟩

/-- At the end of a block the variables of before are left. -/
theorem leave {news : List Local} {slots' : Slots} (h : slots.Typed texts scope) (hadds : scope.enter.Adds news scope')
    (h' : slots'.Typed texts scope') : slots'.Typed texts scope := by
  obtain ⟨ls, hls, -⟩ := h
  obtain ⟨ls', hls', hall'⟩ := h'
  obtain rfl := hls'.unique (hadds.visible ls hls.enter)
  exact ⟨ls, hls, fun v hv => hall' v (List.mem_append_right _ hv)⟩

end Slots.Typed

/-! ## Expressions -/

/-- The same setting without types. -/
def Setting.untyped (s : Setting) : Setting := { s with types := none }

section Expressions

variable {texts : Bool} {s : Setting} {c : Context} {scope : Scope}

theorem Setting.hasType_constant (s : Setting) (l : Literal) : (s.constant l).HasType texts l.ty := by
  cases l with
  | null => rfl
  | bool _ | int _ | long _ | double _ => exact ⟨_, rfl⟩
  | str t => exact ⟨rfl, fun _ _ => ⟨t, rfl⟩⟩

theorem UnaryOp.hasType_onHeap {op : UnaryOp} {h : Heap} {v w : Value} {t u : Ty} (hu : c.unary op t = .ok u)
    (hv : v.HasType texts t) (hw : op.onHeap h v = .ok w) : w.HasType texts u := by
  cases op <;> cases t <;> cases hu <;> obtain ⟨n, rfl⟩ := hv <;> cases hw <;> exact ⟨_, rfl⟩

/-- The results of an expression are the same and of its type. -/
def SameTyped (texts : Bool) (scope : Scope) (t : Ty) (r r' : Value × Slots) : Prop :=
  r = r' ∧ r.1.HasType texts t ∧ r.2.Typed texts scope

/-- An expression has the same value where types are known and where they are not. -/
theorem Expr.compute_agree (hc : c.isStatic = true) (hs : s.types = some c) : ∀ {e : Expr} {t : Ty} {slots : Slots},
    e.isCallFree = true → c.typeOf scope e = .ok t → e.storesExactly texts c scope = true → slots.Typed texts scope →
    Agree (texts = false) (SameTyped texts scope t) (e.compute s scope slots) (e.compute s.untyped scope slots)
  | .lit l, t, slots, he, ht, hexact, hslots => by
    cases ht
    simp only [Expr.compute]
    exact .pure ⟨rfl, s.hasType_constant l, hslots⟩
  | .var x, t, slots, he, ht, hexact, hslots => by
    obtain ⟨v, hv, rfl⟩ := Context.typeOf_var_static hc ht
    simp only [Expr.compute, hv]
    exact .pure ⟨rfl, hslots.get hv, hslots⟩
  | .assign (.var x) e, t, slots, he, ht, hexact, hslots => by
    rw [Expr.isCallFree] at he
    obtain ⟨v, u, hv, rfl, hu, hassign⟩ := Context.typeOf_assign_static hc ht
    simp only [Expr.storesExactly, hv, hu, Except.toOption, Bool.and_eq_true] at hexact
    simp only [Expr.compute, hv]
    refine .bind (Expr.compute_agree hc hs he hu hexact.1 hslots) ?_
    rintro ⟨w, slots⟩ _ ⟨rfl, hw, hslots⟩
    obtain ⟨hnone, hty⟩ := hw.of_takes hassign hexact.2
    simp only [Setting.typeOf_eq hs hu, Setting.typeOf_none (s := s.untyped) rfl, Value.widen_void, hw.widen_eq,
      hw.promoted_of_none hnone, pure_bind]
    exact .pure ⟨rfl, hty, hslots.set hv hty⟩
  | .binary op l r, t, slots, he, ht, hexact, hslots => by
    rw [Expr.isCallFree, Bool.and_eq_true] at he
    rw [Expr.storesExactly, Bool.and_eq_true] at hexact
    obtain ⟨a, b, bt, ha, hb, hbt, rfl⟩ := Context.typeOf_binary_eq_ok ht
    cases hop : op.instr? with
    | none =>
      obtain ⟨rfl, rfl, hresult⟩ := Context.binary_logical hop hbt
      simp only [Expr.compute, hop]
      refine .bind (Expr.compute_agree hc hs he.1 ha hexact.1 hslots) ?_
      rintro ⟨v, slots⟩ _ ⟨rfl, hv, hslots⟩
      refine .bind (R := fun b b' => b = b') (.ask fun _ _ _ => rfl) ?_
      rintro b _ rfl
      rw [hresult]
      split
      · exact Expr.compute_agree hc hs he.2 hb hexact.2 hslots
      · exact .pure ⟨rfl, ⟨b, rfl⟩, hslots⟩
    | some i =>
      simp only [Expr.compute, hop, Setting.typing_eq hs ha hb hbt, Setting.typing_none (s := s.untyped) rfl,
        Setting.typeOf_eq hs ha, Setting.typeOf_eq hs hb]
      refine .bind (Expr.compute_agree hc hs he.1 ha hexact.1 hslots) ?_
      rintro ⟨v, slots⟩ _ ⟨rfl, hv, hslots⟩
      simp only [bt.widen_eq hv, BinaryTyping.widen_unknown, BinaryTyping.instr_unknown, pure_bind]
      refine .bind (Expr.compute_agree hc hs he.2 hb hexact.2 hslots) ?_
      rintro ⟨w, slots⟩ _ ⟨rfl, hw, hslots⟩
      simp only [bt.widen_eq hw, pure_bind]
      refine .bind (operator_agree s.render hop hbt hv hw) ?_
      rintro z _ ⟨rfl, hz⟩
      exact .pure ⟨rfl, hz, hslots⟩
  | .unary op e, t, slots, he, ht, hexact, hslots => by
    rw [Expr.isCallFree] at he
    rw [Expr.storesExactly] at hexact
    obtain ⟨u, hu, hunary⟩ := Context.typeOf_unary_eq_ok ht
    simp only [Expr.compute]
    refine .bind (Expr.compute_agree hc hs he hu hexact hslots) ?_
    rintro ⟨v, slots⟩ _ ⟨rfl, hv, hslots⟩
    refine .bind (R := fun w w' => w = w' ∧ w.HasType texts t) (.ask fun h w hw => ?_) ?_
    · exact ⟨rfl, UnaryOp.hasType_onHeap hunary hv hw⟩
    · rintro w _ ⟨rfl, hw⟩
      exact .pure ⟨rfl, hw, hslots⟩

/-- Where a type is expected, numbers are widened to it only if types are known. -/
theorem Expr.value_agree (hc : c.isStatic = true) (hs : s.types = some c) {e : Expr} {t : Ty} {slots : Slots}
    (he : e.isCallFree = true) (ht : c.typeOf scope e = .ok t) (hexact : e.storesExactly texts c scope = true)
    (hslots : slots.Typed texts scope) (expected : Ty) :
    Agree (texts = false) (fun r r' => r.1 = r'.1.promoted expected ∧ r.2 = r'.2 ∧ SameTyped texts scope t r' r')
      (e.value s scope expected slots) (e.value s.untyped scope expected slots) := by
  refine .bind (Expr.compute_agree hc hs he ht hexact hslots) ?_
  rintro ⟨v, slots⟩ _ ⟨rfl, hv, hslots⟩
  simp only [Setting.typeOf_eq hs ht, Setting.typeOf_none (s := s.untyped) rfl, Value.widen_void, hv.widen_eq, pure_bind]
  exact .pure ⟨rfl, rfl, rfl, hv, hslots⟩

/-- A condition is true where types are known and where they are not. -/
theorem Expr.truth_agree (hc : c.isStatic = true) (hs : s.types = some c) {e : Expr} {slots : Slots}
    (he : e.isCallFree = true) (ht : c.typeOf scope e = .ok .boolean) (hexact : e.storesExactly texts c scope = true)
    (hslots : slots.Typed texts scope) :
    Agree (texts = false) (fun r r' => r = r' ∧ r.2.Typed texts scope)
      (e.truth s scope slots) (e.truth s.untyped scope slots) := by
  refine .bind (Expr.value_agree hc hs he ht hexact hslots .boolean) ?_
  rintro ⟨v, slots⟩ ⟨w, _⟩ ⟨hvw, rfl, -, hw, hslots⟩
  obtain rfl : v = w := hvw.trans (hw.promoted_of_none rfl)
  refine .bind (R := fun b b' => b = b') (.ask fun _ _ _ => rfl) ?_
  rintro b _ rfl
  exact .pure ⟨rfl, hslots⟩

end Expressions

/-! ## Statements -/

/-- What follows a statement is the same: the slots, whose values are of their types, or a result, which is the same once it
is converted to the result type. -/
def Flow.Same (texts : Bool) (scope : Scope) (ret : Ty) : Flow → Flow → Prop
  | .next slots, .next slots' => slots = slots' ∧ slots.Typed texts scope
  | .ret (some v), .ret (some w) => ∀ h : Heap, h.coerce v ret.erased = h.coerce w ret.erased
  | .ret none, .ret none => True
  | _, _ => False

section Statements

variable {texts : Bool} {s : Setting} {c : Context} {scope scope' : Scope}

/-- A return is the same wherever it stands, so only the slots matter. -/
theorem Flow.Same.imp {ret : Ty} {flow flow' : Flow} (h : flow.Same texts scope ret flow')
    (himp : ∀ slots : Slots, slots.Typed texts scope → slots.Typed texts scope') : flow.Same texts scope' ret flow' := by
  cases flow with
  | next slots =>
    cases flow' with
    | next slots' => exact ⟨h.1, himp slots h.2⟩
    | ret v => exact h.elim
  | ret v =>
    cases flow' with
    | next slots' => cases v <;> exact h.elim
    | ret w => cases v <;> cases w <;> exact h

theorem Flow.andThen_agree {ret : Ty} {flow flow' : Flow} {k k' : Slots → Run Flow}
    (h : flow.Same texts scope ret flow')
    (hk : ∀ slots : Slots, slots.Typed texts scope → Agree (texts = false) (Flow.Same texts scope' ret) (k slots) (k' slots)) :
    Agree (texts = false) (Flow.Same texts scope' ret) (flow.andThen k) (flow'.andThen k') := by
  cases flow with
  | next slots =>
    cases flow' with
    | next slots' =>
      obtain ⟨rfl, hslots⟩ := h
      exact hk slots hslots
    | ret v => exact h.elim
  | ret v =>
    cases flow' with
    | next slots' => cases v <;> exact h.elim
    | ret w => cases v <;> cases w <;> exact .pure h

/-- The rule for a loop, by induction over the rounds that are allowed. -/
theorem goAround_agree {ret : Ty} {test test' : Slots → Run (Bool × Slots)} {body body' : Slots → Run Flow}
    (htest : ∀ slots : Slots, slots.Typed texts scope →
      Agree (texts = false) (fun r r' => r = r' ∧ r.2.Typed texts scope) (test slots) (test' slots))
    (hbody : ∀ slots : Slots, slots.Typed texts scope →
      Agree (texts = false) (Flow.Same texts scope ret) (body slots) (body' slots)) (n : Nat) {slots : Slots}
    (hslots : slots.Typed texts scope) :
    Agree (texts = false) (Flow.Same texts scope ret) (goAround test body n slots) (goAround test' body' n slots) := by
  induction n generalizing slots with
  | zero => exact .throw _
  | succ n ih =>
    rw [goAround, goAround]
    refine .bind (htest slots hslots) ?_
    rintro ⟨b, slots⟩ _ ⟨rfl, hslots⟩
    cases b with
    | true => exact .bind (hbody slots hslots) fun flow flow' h => Flow.andThen_agree h fun slots hslots => ih hslots
    | false => exact .pure ⟨rfl, hslots⟩

theorem Setting.hasType_default (s : Setting) {ty : Ty} (h : ty.takes texts none = true) :
    (s.default ty).HasType texts ty := by
  cases ty with
  | void | null => rfl
  | boolean | int | long | double => exact ⟨_, rfl⟩
  | ref name =>
    refine ⟨rfl, fun htexts hname => ?_⟩
    simp [Ty.takes, htexts, hname, Ty.isString] at h

mutual

/-- A statement does the same where types are known and where they are not. -/
theorem Stmt.perform_agree (hc : c.isStatic = true) (hs : s.types = some c) : ∀ {x : Stmt} {scope : Scope} {slots : Slots},
    x.isCallFree = true → x.WellTyped c scope → x.storesExactly texts c scope = true → slots.Typed texts scope →
    Agree (texts = false) (Flow.Same texts (x.after scope) c.ret)
      (x.perform s c.ret scope slots) (x.perform s.untyped c.ret scope slots)
  | .block stmts, scope, slots, hx, hw, hexact, hslots => by
    rw [Stmt.isCallFree] at hx
    rw [Stmt.WellTyped] at hw
    rw [Stmt.storesExactly] at hexact
    obtain ⟨news, hadds⟩ := exists_adds_afterAll stmts scope.enter
    simp only [Stmt.perform, Stmt.after]
    refine (Stmt.performAll_agree hc hs hx hw hexact hslots.enter).mono fun flow flow' h => h.imp fun slots' h' => ?_
    exact (hslots.leave hadds h').of_adds hadds.pop
  | .decl name ty none, scope, slots, hx, hw, hexact, hslots => by
    rw [Stmt.WellTyped] at hw
    rw [Stmt.storesExactly] at hexact
    obtain ⟨slot, hslot⟩ := hw
    have hd : scope.declare name ty = (.ok slot, (scope.declare name ty).2) := Prod.ext hslot rfl
    simp only [Stmt.perform, Stmt.after_decl none hd, pure_bind]
    rw [hd]
    exact .pure ⟨rfl, hslots.declare hd (s.hasType_default hexact)⟩
  | .decl name ty (some e), scope, slots, hx, hw, hexact, hslots => by
    rw [Stmt.isCallFree] at hx
    rw [Stmt.WellTyped] at hw
    obtain ⟨⟨t, ht, hassign⟩, slot, hslot⟩ := hw
    simp only [Stmt.storesExactly, ht, Except.toOption, Bool.and_eq_true] at hexact
    have hd : scope.declare name ty = (.ok slot, (scope.declare name ty).2) := Prod.ext hslot rfl
    simp only [Stmt.perform, Stmt.after_decl (some e) hd]
    refine .bind (Expr.value_agree hc hs hx ht hexact.1 hslots ty) ?_
    rintro ⟨v, slots⟩ ⟨w, _⟩ ⟨hvw, rfl, -, hw, hslots⟩
    obtain ⟨hnone, hty⟩ := hw.of_takes hassign hexact.2
    obtain rfl : v = w := hvw.trans (hw.promoted_of_none hnone)
    rw [hd]
    exact .pure ⟨rfl, hslots.declare hd hty⟩
  | .expr e, scope, slots, hx, hw, hexact, hslots => by
    rw [Stmt.isCallFree] at hx
    rw [Stmt.WellTyped] at hw
    rw [Stmt.storesExactly] at hexact
    obtain ⟨t, ht⟩ := hw
    simp only [Stmt.perform, Stmt.after]
    refine .bind (Expr.compute_agree hc hs hx ht hexact hslots) ?_
    rintro ⟨v, slots⟩ _ ⟨rfl, -, hslots⟩
    exact .pure ⟨rfl, hslots⟩
  | .ret none, scope, slots, hx, hw, hexact, hslots => by
    simp only [Stmt.perform]
    exact .pure trivial
  | .ret (some e), scope, slots, hx, hw, hexact, hslots => by
    rw [Stmt.isCallFree] at hx
    rw [Stmt.WellTyped] at hw
    rw [Stmt.storesExactly] at hexact
    obtain ⟨hvoid, t, ht, -⟩ := hw
    simp only [Stmt.perform, hvoid, Bool.false_eq_true, if_false]
    refine .bind (Expr.value_agree hc hs hx ht hexact hslots c.ret) ?_
    rintro ⟨v, slots⟩ ⟨w, _⟩ ⟨hvw, -⟩
    refine .pure fun h => ?_
    change h.coerce v _ = h.coerce w _
    rw [show v = w.promoted c.ret from hvw, h.coerce_promoted]
  | .cond test t none, scope, slots, hx, hw, hexact, hslots => by
    rw [Stmt.isCallFree, Bool.and_eq_true] at hx
    rw [Stmt.WellTyped] at hw
    rw [Stmt.storesExactly, Bool.and_eq_true] at hexact
    obtain ⟨news, hadds⟩ := t.exists_adds_after scope.enter
    simp only [Stmt.perform, Stmt.after]
    refine .bind (Expr.truth_agree hc hs hx.1 hw.1 hexact.1 hslots) ?_
    rintro ⟨b, slots⟩ _ ⟨rfl, hslots⟩
    cases b with
    | true =>
      refine (Stmt.perform_agree hc hs hx.2 hw.2 hexact.2 hslots.enter).mono fun _ _ h => h.imp fun slots' h' => ?_
      exact (hslots.leave hadds h').of_adds hadds.pop
    | false => exact .pure ⟨rfl, hslots.of_adds hadds.pop⟩
  | .cond test t (some e), scope, slots, hx, hw, hexact, hslots => by
    simp only [Stmt.isCallFree, Bool.and_eq_true] at hx
    rw [Stmt.WellTyped] at hw
    simp only [Stmt.storesExactly, Bool.and_eq_true] at hexact
    obtain ⟨news, hadds⟩ := t.exists_adds_after scope.enter
    obtain ⟨news', hadds'⟩ := e.exists_adds_after (t.after scope.enter).pop.enter
    simp only [Stmt.perform, Stmt.after]
    refine .bind (Expr.truth_agree hc hs hx.1.1 hw.1 hexact.1.1 hslots) ?_
    rintro ⟨b, slots⟩ _ ⟨rfl, hslots⟩
    have hslots' := hslots.of_adds hadds.pop
    cases b with
    | true =>
      refine (Stmt.perform_agree hc hs hx.1.2 hw.2.1 hexact.1.2 hslots.enter).mono fun _ _ h => h.imp fun slots' h' => ?_
      exact ((hslots.leave hadds h').of_adds hadds.pop).of_adds hadds'.pop
    | false =>
      refine (Stmt.perform_agree hc hs hx.2 hw.2.2 hexact.2 hslots'.enter).mono fun _ _ h => h.imp fun slots'' h'' => ?_
      exact (hslots'.leave hadds' h'').of_adds hadds'.pop
  | .loop test body, scope, slots, hx, hw, hexact, hslots => by
    rw [Stmt.isCallFree, Bool.and_eq_true] at hx
    rw [Stmt.WellTyped] at hw
    rw [Stmt.storesExactly, Bool.and_eq_true] at hexact
    obtain ⟨news, hadds⟩ := body.exists_adds_after scope.enter
    simp only [Stmt.perform, Stmt.after]
    have hround : ∀ slots : Slots, slots.Typed texts scope → Agree (texts = false) (Flow.Same texts scope c.ret)
        (body.perform s c.ret scope.enter slots) (body.perform s.untyped c.ret scope.enter slots) := by
      intro slots hslots
      refine (Stmt.perform_agree hc hs hx.2 hw.2 hexact.2 hslots.enter).mono fun _ _ h => h.imp fun slots' h' => ?_
      exact hslots.leave hadds h'
    refine (goAround_agree (fun slots hslots => Expr.truth_agree hc hs hx.1 hw.1 hexact.1 hslots) hround s.rounds
      hslots).mono fun _ _ h => h.imp fun slots' h' => ?_
    exact h'.of_adds hadds.pop
  | .superCall args, scope, slots, hx, hw, hexact, hslots => by simp [Stmt.isCallFree] at hx

theorem Stmt.performAll_agree (hc : c.isStatic = true) (hs : s.types = some c) :
    ∀ {xs : List Stmt} {scope : Scope} {slots : Slots}, Stmt.allCallFree xs = true → allWellTyped c xs scope →
    Stmt.storesAllExactly texts c xs scope = true → slots.Typed texts scope →
    Agree (texts = false) (Flow.Same texts (afterAll xs scope) c.ret)
      (Stmt.performAll s c.ret xs scope slots) (Stmt.performAll s.untyped c.ret xs scope slots)
  | [], scope, slots, hx, hw, hexact, hslots => by
    simp only [Stmt.performAll, afterAll]
    exact .pure ⟨rfl, hslots⟩
  | x :: rest, scope, slots, hx, hw, hexact, hslots => by
    rw [Stmt.allCallFree, Bool.and_eq_true] at hx
    rw [allWellTyped] at hw
    rw [Stmt.storesAllExactly, Bool.and_eq_true] at hexact
    simp only [Stmt.performAll, afterAll]
    exact .bind (Stmt.perform_agree hc hs hx.1 hw.1 hexact.1 hslots) fun flow flow' h =>
      Flow.andThen_agree h fun slots hslots => Stmt.performAll_agree hc hs hx.2 hw.2 hexact.2 hslots

end

end Statements

end ClassTree
