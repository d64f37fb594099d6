import ClassTree.Proofs.Code.Typed
import ClassTree.Proofs.Machine.Overloads
import ClassTree.Proofs.Machine.TypedHeap

/-!
# Values that conform to types

`Heap.Typed` keeps for every slot a value that conforms to its type. Here is what such values are good for.

* What a value is that conforms to a type (`Heap.Conforms.bool`, `Heap.Conforms.number`, `Heap.Conforms.null_or_instance`), and
  that it conforms to every type that has more values (`Heap.Conforms.of_isSubtype`).
* Conversions leave values that conform as they are (`Heap.coerceAll_eq`, `Heap.finish_eq`).
* An operator gives a result of its type for operands of its types. Only a division can fail, and only for the divisor zero
  (`Heap.arith_conforms`, `Heap.arith_error`).
-/

namespace ClassTree

theorem LoadedClass.isSome_distance? {k c : LoadedClass} (hk : k ∈ c.chain) : (c.distance? k.name).isSome = true := by
  rw [distance?, List.findIdx?_isSome, List.any_eq_true]
  exact ⟨k, hk, decide_eq_true rfl⟩

namespace Heap

variable {h : Heap} {v w a b : Value} {s t u : Ty} {n : Name} {c k : LoadedClass}

/-- The class that a value is an instance of. -/
def classOf? (h : Heap) : Value → Option LoadedClass
  | .str _ => some .string
  | .object id => h.class? id
  | _ => none

/-! ## What conforms -/

theorem Conforms.null (h : Heap) (n : Name) : h.Conforms .null (.ref n) := rfl

theorem Conforms.bool (hv : h.Conforms v .boolean) : ∃ x, v = .bool x := by
  cases v
  case bool x => exact ⟨x, rfl⟩
  all_goals cases hv

theorem Conforms.eq_null (hv : h.Conforms v .null) : v = .null := by
  cases v
  case null => rfl
  all_goals cases hv

/-- The values that conform to the type of a number. -/
theorem Conforms.number (hv : h.Conforms v t) (ht : t.isNumeric = true) :
    (∃ x, t = .int ∧ v = .int x) ∨ (∃ x, t = .long ∧ v = .long x) ∨ ∃ x, t = .double ∧ v = .double x := by
  cases t <;> cases ht
  case int =>
    cases v
    case int x => exact .inl ⟨x, rfl, rfl⟩
    all_goals cases hv
  case long =>
    cases v
    case long x => exact .inr (.inl ⟨x, rfl, rfl⟩)
    all_goals cases hv
  case double =>
    cases v
    case double x => exact .inr (.inr ⟨x, rfl, rfl⟩)
    all_goals cases hv

/-- An instance conforms to the classes above its own. -/
theorem conforms_ref_iff (hv : h.classOf? v = some k) : h.Conforms v (.ref n) ↔ (k.distance? n).isSome = true := by
  have hcheck : h.coerce v (.ref n) =
      if (h.referenceCost v (.ref n)).isSome then .ok v else .error (h.mismatch (Ty.ref n).text v) := by
    cases v <;> rfl
  have hcost : (h.referenceCost v (.ref n)).isSome = (k.distance? n).isSome := by
    cases v
    case str s =>
      cases hv
      rw [LoadedClass.distance?_string]
      rfl
    case object id =>
      have hclass : h.class? id = some k := hv
      rw [referenceCost, hclass, Option.bind_some]
    all_goals cases hv
  rw [Conforms, hcheck, hcost]
  split <;> simp [*]

/-- What conforms to a class is null or an instance. -/
theorem Conforms.null_or_instance (hv : h.Conforms v (.ref n)) :
    v = .null ∨ ∃ k, h.classOf? v = some k ∧ (k.distance? n).isSome = true := by
  have hfound : ∀ k, h.classOf? v = some k → ∃ k, h.classOf? v = some k ∧ (k.distance? n).isSome = true :=
    fun k hk => ⟨k, hk, (conforms_ref_iff hk).1 hv⟩
  cases v
  case null => exact .inl rfl
  case str s => exact .inr (hfound _ rfl)
  case object id =>
    refine .inr ?_
    cases hclass : h.class? id with
    | some k => exact hfound k hclass
    | none =>
      have hcost : h.referenceCost (.object id) (.ref n) = none := by rw [referenceCost, hclass, Option.bind_none]
      rw [Conforms, show h.coerce (.object id) (.ref n) =
        if (h.referenceCost (.object id) (.ref n)).isSome then .ok _ else .error _ from rfl, hcost] at hv
      cases hv
  all_goals cases hv

/-- A value conforms to every type that has more values, if the classes of instances are those of the loader. -/
theorem Conforms.of_isSubtype {l : Loader} (hheld : ∀ v k, h.classOf? v = some k → l.Holds k) (hst : l.IsSubtype s t)
    (hv : h.Conforms v s) : h.Conforms v t := by
  cases hst with
  | refl => exact hv
  | null n =>
    rw [hv.eq_null]
    exact .null h n
  | below hbelow =>
    rcases hv.null_or_instance with rfl | ⟨k, hk, hdistance⟩
    · exact .null h _
    · exact (conforms_ref_iff hk).2 (hbelow k (hheld v k hk) hdistance)

/-! ## Conversions -/

/-- Arguments that conform are passed as they are. -/
theorem coerceAll_eq {vs : List Value} {ts : List Ty} (hvs : List.Forall₂ h.Conforms vs ts) : h.coerceAll vs ts = .ok vs := by
  induction hvs with
  | nil => rfl
  | cons hv _ ih =>
    rw [coerceAll, show h.coerce _ _ = _ from hv, ih]
    rfl

/-- A result that conforms is returned as it is. -/
theorem finish_eq {m : LoadedMethod} (hv : h.Conforms v m.ret) : h.finish m (some v) = .ok v := by
  rw [finish]
  split
  · rename_i hvoid
    rw [show m.ret = .void by simpa [Ty.isVoid] using hvoid, conforms_void_iff] at hv
    rw [hv]
  · exact hv

/-- A method may end without a value. -/
theorem finish_none (h : Heap) (m : LoadedMethod) : ∃ w, h.finish m none = .ok w := by
  rw [finish]
  split <;> exact ⟨_, rfl⟩

/-! ## Operators -/

theorem arith_error {op : ArithOp} {e : RuntimeError} (ht : t.isNumeric = true) (ha : h.Conforms a t) (hb : h.Conforms b t)
    (he : h.arith op a b = .error e) : e = .divisionByZero := by
  have hpair : ∃ p, h.operands a b = .ok p := by
    rcases ha.number ht with ⟨x, rfl, rfl⟩ | ⟨x, rfl, rfl⟩ | ⟨x, rfl, rfl⟩ <;>
      rcases hb.number ht with ⟨y, hy, rfl⟩ | ⟨y, hy, rfl⟩ | ⟨y, hy, rfl⟩ <;> exact ⟨_, rfl⟩
  obtain ⟨p, hp⟩ := hpair
  rw [arith, hp] at he
  exact NumberPair.eq_divisionByZero he

theorem arith_conforms {op : ArithOp} (ht : t.isNumeric = true) (ha : h.Conforms a t) (hb : h.Conforms b t)
    (hw : h.arith op a b = .ok w) : h.Conforms w t := by
  have hdiv : ∀ {q : Prop} [Decidable q] {v : Value},
      (if q then Except.error RuntimeError.divisionByZero else .ok v) = .ok w → w = v := by
    intro q _ v hq
    split at hq <;> cases hq
    rfl
  rcases ha.number ht with ⟨x, rfl, rfl⟩ | ⟨x, rfl, rfl⟩ | ⟨x, rfl, rfl⟩
  · obtain ⟨y, rfl⟩ : ∃ y, b = .int y := by simpa using hb.number ht
    change op.onInts x y = .ok w at hw
    cases op <;> first | (cases hw; rfl) | (rw [hdiv hw]; rfl)
  · obtain ⟨y, rfl⟩ : ∃ y, b = .long y := by simpa using hb.number ht
    change op.onLongs x y = .ok w at hw
    cases op <;> first | (cases hw; rfl) | (rw [hdiv hw]; rfl)
  · obtain ⟨y, rfl⟩ : ∃ y, b = .double y := by simpa using hb.number ht
    cases hw
    rfl

theorem exists_negate (ht : t.isNumeric = true) (hv : h.Conforms v t) : ∃ w, h.negate v = .ok w ∧ h.Conforms w t := by
  rcases hv.number ht with ⟨x, rfl, rfl⟩ | ⟨x, rfl, rfl⟩ | ⟨x, rfl, rfl⟩ <;> exact ⟨_, rfl, rfl⟩

theorem exists_complement (hv : h.Conforms v .boolean) : ∃ w, h.complement v = .ok w ∧ h.Conforms w .boolean := by
  obtain ⟨x, rfl⟩ := hv.bool
  exact ⟨_, rfl, rfl⟩

theorem exists_truth (hv : h.Conforms v .boolean) : ∃ x, h.truth v = .ok x := by
  obtain ⟨x, rfl⟩ := hv.bool
  exact ⟨x, rfl⟩

theorem exists_widen {x : Widening} (hx : Widening.between? s t = some x) (hv : h.Conforms v s) :
    ∃ w, h.widen x v = .ok w ∧ h.Conforms w t := by
  unfold Widening.between? at hx
  split at hx <;> cases hx
  all_goals
    obtain ⟨y, rfl⟩ : ∃ y, _ = _ := by simpa using hv.number rfl
    exact ⟨_, rfl, rfl⟩

theorem exists_compare {op : CompareOp} (hop : op.Compares s t) (ha : h.Conforms a t) (hb : h.Conforms b s) :
    ∃ w, h.compare op a b = .ok w ∧ h.Conforms w .boolean := by
  rcases hop with (rfl | rfl) | ⟨rfl, ht⟩
  · exact ⟨_, rfl, rfl⟩
  · exact ⟨_, rfl, rfl⟩
  · obtain ⟨p, hp⟩ : ∃ p, h.operands a b = .ok p := by
      rcases ha.number ht with ⟨x, rfl, rfl⟩ | ⟨x, rfl, rfl⟩ | ⟨x, rfl, rfl⟩ <;>
        rcases hb.number ht with ⟨y, hy, rfl⟩ | ⟨y, hy, rfl⟩ | ⟨y, hy, rfl⟩ <;> exact ⟨_, rfl⟩
    unfold compare
    rw [hp]
    split <;> exact ⟨_, rfl, rfl⟩

end Heap

end ClassTree
