import ClassTree.Proofs.Descriptor
import ClassTree.Proofs.Registry.Distance

/-!
# Assignability

In every registry that is made by entering classes and changing their superclasses, with cycles and unknown superclasses or
without, assignability is reflexive and transitive, and the cost of a conversion is at most that of a detour
(`Registry.Edited.assignable_preorder`). Conversions are of few kinds (`Registry.Converts`), and two of them one after the
other are again one of these (`Registry.Converts.trans`): the only kind that asks the registry is the way from a class to one
of its superclasses, where distances are subadditive.

Without cycles the costs of ways up add up (`Registry.Acyclic.conversionCost_add`), so that no two classes are assignable to
each other.
-/

namespace ClassTree.Registry

variable {r : Registry} {a b c : Ty} {k l : Nat}

/-! ## Registries with distinct names -/

/-- Registries that come from the empty one by entering classes and changing entries, as for another superclass. -/
inductive Edited : Registry → Prop
  | empty : Edited .empty
  | register {r r' : Registry} {entry : ClassEntry} : Edited r → r.register entry = .ok r' → Edited r'
  | update {r : Registry} (n : Name) (f : ClassEntry → ClassEntry) : Edited r → Edited (r.update n f)

theorem nodup_register {r' : Registry} {entry : ClassEntry} (hnodup : (r.classes.map (·.name)).Nodup)
    (h : r.register entry = .ok r') : (r'.classes.map (·.name)).Nodup := by
  unfold register at h
  split at h
  · cases h
  · rename_i hnew
    cases h
    have hnew : ∀ e ∈ r.classes, e.name ≠ entry.name := by simpa [contains, get?] using hnew
    rw [List.map_append, List.map_singleton, List.nodup_append]
    refine ⟨hnodup, by simp, fun x hx y hy => ?_⟩
    obtain ⟨e, he, rfl⟩ := List.mem_map.1 hx
    rw [List.mem_singleton.1 hy]
    exact hnew e he

theorem names_update (n : Name) (f : ClassEntry → ClassEntry) :
    (r.update n f).classes.map (·.name) = r.classes.map (·.name) := by
  rw [update, List.map_map]
  refine List.map_congr_left fun e _ => ?_
  simp only [Function.comp_apply]
  split <;> rfl

theorem Edited.nodup_names (h : r.Edited) : (r.classes.map (·.name)).Nodup := by
  induction h with
  | empty => exact .nil
  | register _ hregister ih => exact nodup_register ih hregister
  | update n f _ ih => rwa [names_update]

/-- The chain of a class holds the registered classes that links lead to. -/
theorem Edited.mem_chain_iff (h : r.Edited) {n : Name} {e : ClassEntry} :
    e ∈ r.chain n ↔ e ∈ r.classes ∧ Relation.ReflTransGen r.Extends n e.name := by
  rw [Registry.mem_chain_iff]
  exact and_congr_left' ⟨fun hget => (get?_eq_some hget).1, get?_of_mem h.nodup_names⟩

/-! ## Kinds of conversions -/

/-- A value of the first type may stand where the second is expected, at a cost. -/
inductive Converts (r : Registry) : Ty → Ty → Nat → Prop
  | same {t : Ty} : t ≠ .void → Converts r t t 0
  | intToLong : Converts r .int .long 1
  | longToDouble : Converts r .long .double 1
  | intToDouble : Converts r .int .double 2
  | null {n : Name} : Converts r .null (.ref n) 1
  | up {n m : Name} {k : Nat} : n ≠ m → r.distance? n m = some k → Converts r (.ref n) (.ref m) k

theorem conversionCost_eq_some_iff : r.conversionCost a b = some k ↔ r.Converts a b k := by
  constructor
  · intro h
    unfold conversionCost at h
    split at h
    · cases h
    · rename_i hvoid
      simp only [Ty.isVoid, Bool.or_eq_true, decide_eq_true_eq, not_or] at hvoid
      split at h
      · rename_i heq
        cases h
        exact heq ▸ .same hvoid.1
      · rename_i hne
        split at h
        · cases h; exact .intToLong
        · cases h; exact .longToDouble
        · cases h; exact .intToDouble
        · cases h; exact .null
        · exact .up (fun heq => hne (congrArg Ty.ref heq)) h
        · cases h
  · intro h
    cases h with
    | same ht => simp [conversionCost, Ty.isVoid, ht]
    | intToLong | longToDouble | intToDouble | null => rfl
    | up hne hk => simp [conversionCost, Ty.isVoid, hne, hk]

theorem isAssignable_iff : r.isAssignable a b = true ↔ ∃ k, r.Converts a b k := by
  rw [isAssignable, Option.isSome_iff_exists]
  exact exists_congr fun _ => conversionCost_eq_some_iff

/-- Two conversions one after the other can be made at once, for at most the cost of both. -/
theorem Converts.trans (h : r.Converts a b k) (h' : r.Converts b c l) : ∃ m ≤ k + l, r.Converts a c m := by
  cases h with
  | same => exact ⟨l, by omega, h'⟩
  | intToLong =>
    cases h' with
    | same => exact ⟨1, by omega, .intToLong⟩
    | longToDouble => exact ⟨2, by omega, .intToDouble⟩
  | longToDouble =>
    cases h' with
    | same => exact ⟨1, by omega, .longToDouble⟩
  | intToDouble =>
    cases h' with
    | same => exact ⟨2, by omega, .intToDouble⟩
  | null =>
    cases h' with
    | same => exact ⟨1, by omega, .null⟩
    | up => exact ⟨1, by omega, .null⟩
  | @up n m k hne hk =>
    cases h' with
    | same => exact ⟨k, by omega, .up hne hk⟩
    | @up _ x l _ hl =>
      by_cases hback : n = x
      · exact ⟨0, by omega, hback ▸ .same Ty.noConfusion⟩
      · obtain ⟨d, hle, hd⟩ := distance?_trans hk hl
        exact ⟨d, hle, .up hback hd⟩

/-! ## Without cycles -/

/-- Without cycles the costs of ways up add up. -/
theorem Acyclic.conversionCost_add (h : r.Acyclic) {x y z : Name} (hxy : r.conversionCost (.ref x) (.ref y) = some k)
    (hyz : r.conversionCost (.ref y) (.ref z) = some l) : r.conversionCost (.ref x) (.ref z) = some (k + l) := by
  rw [conversionCost_eq_some_iff] at hxy hyz
  cases hxy with
  | same => rwa [Nat.zero_add, conversionCost_eq_some_iff]
  | up hne hk =>
    cases hyz with
    | same => exact conversionCost_eq_some_iff.2 (.up hne hk)
    | up _ hl =>
      have hkl := h.distance?_add hk hl
      refine conversionCost_eq_some_iff.2 (.up ?_ hkl)
      rintro rfl
      obtain ⟨hk0, -⟩ := Nat.add_eq_zero_iff.1 (h.eq_zero_of_climbs (isLeast_of_distance? hkl).2.1)
      exact hne (eq_of_distance?_eq_zero (hk0 ▸ hk))

/-- Without cycles no two classes are assignable to each other. -/
theorem Acyclic.eq_of_isAssignable (h : r.Acyclic) {x y : Name} (hxy : r.isAssignable (.ref x) (.ref y) = true)
    (hyx : r.isAssignable (.ref y) (.ref x) = true) : x = y := by
  obtain ⟨k, hk⟩ := isAssignable_iff.1 hxy
  obtain ⟨l, hl⟩ := isAssignable_iff.1 hyx
  cases hk with
  | same => rfl
  | up hne hk =>
    cases hl with
    | same => rfl
    | up _ hl =>
      have hzero := h.eq_zero_of_climbs (isLeast_of_distance? (h.distance?_add hk hl)).2.1
      obtain ⟨hk0, -⟩ := Nat.add_eq_zero_iff.1 hzero
      exact eq_of_distance?_eq_zero (hk0 ▸ hk)

/-! ## The preorder -/

/-- Chains are complete and end; assignability is a preorder on the types of values, and costs are subadditive. Without
cycles the costs of ways up add up and assignability is antisymmetric on classes. -/
theorem Edited.assignable_preorder (h : r.Edited) :
    (∀ n, ((r.chain n).map (·.name)).Nodup ∧
      ∀ e, e ∈ r.chain n ↔ e ∈ r.classes ∧ Relation.ReflTransGen r.Extends n e.name) ∧
    (∀ t, t ≠ .void → r.isAssignable t t = true) ∧
    (∀ a b c, r.isAssignable a b = true → r.isAssignable b c = true → r.isAssignable a c = true) ∧
    (∀ a b c k l, r.conversionCost a b = some k → r.conversionCost b c = some l →
      ∃ m ≤ k + l, r.conversionCost a c = some m) ∧
    (r.Acyclic →
      (∀ x y z k l, r.conversionCost (.ref x) (.ref y) = some k → r.conversionCost (.ref y) (.ref z) = some l →
        r.conversionCost (.ref x) (.ref z) = some (k + l)) ∧
      ∀ x y, r.isAssignable (.ref x) (.ref y) = true → r.isAssignable (.ref y) (.ref x) = true → x = y) := by
  refine ⟨fun n => ⟨r.nodup_chain n, fun e => h.mem_chain_iff⟩, fun t ht => isAssignable_iff.2 ⟨0, .same ht⟩, ?_, ?_, ?_⟩
  · intro a b c hab hbc
    obtain ⟨k, hk⟩ := isAssignable_iff.1 hab
    obtain ⟨l, hl⟩ := isAssignable_iff.1 hbc
    obtain ⟨m, -, hm⟩ := hk.trans hl
    exact isAssignable_iff.2 ⟨m, hm⟩
  · intro a b c k l hk hl
    simp only [conversionCost_eq_some_iff] at hk hl ⊢
    exact hk.trans hl
  · intro hacyclic
    exact ⟨fun x y z k l => hacyclic.conversionCost_add, fun x y => hacyclic.eq_of_isAssignable⟩

/-! ## Three classes in a circle -/

namespace Roundabout

def first : Name := .ofPath ["A"] (Eq.refl true)

def second : Name := .ofPath ["B"] (Eq.refl true)

def third : Name := .ofPath ["C"] (Eq.refl true)

def link (n s : Name) : ClassEntry := { name := n, modifiers := .pub, superclass := some s }

/-- `A extends B`, `B extends C`, `C extends A`. -/
def registry : Registry := ⟨[link first second, link second third, link third first]⟩

theorem edited : registry.Edited := by
  have hfirst : Edited ⟨[link first second]⟩ :=
    .register .empty (show register .empty (link first second) = .ok _ from rfl)
  have hsecond : Edited ⟨[link first second, link second third]⟩ :=
    .register hfirst (show register _ (link second third) = .ok _ from rfl)
  exact .register hsecond (show register _ (link third first) = .ok _ from rfl)

end Roundabout

/-- The detour from `A` over `C` to `B` goes around once and on. -/
theorem Edited.assignable_preorder_roundabout :
    Roundabout.registry.Edited ∧ Roundabout.registry.conversionCost (.ref Roundabout.first) (.ref Roundabout.third) = some 2 ∧
      Roundabout.registry.conversionCost (.ref Roundabout.third) (.ref Roundabout.second) = some 2 ∧
      ∃ m ≤ 2 + 2, Roundabout.registry.conversionCost (.ref Roundabout.first) (.ref Roundabout.second) = some m := by
  have hup : Roundabout.registry.conversionCost (.ref Roundabout.first) (.ref Roundabout.third) = some 2 := by decide
  have hdown : Roundabout.registry.conversionCost (.ref Roundabout.third) (.ref Roundabout.second) = some 2 := by decide
  obtain ⟨-, -, -, hdetour, -⟩ := Roundabout.edited.assignable_preorder
  exact ⟨Roundabout.edited, hup, hdown, hdetour _ _ _ _ _ hup hdown⟩

end ClassTree.Registry
