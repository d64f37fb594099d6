import ClassTree.Code.Constant

/-!
# Constant pools only grow

* `Pool.put` adds an item, a literal or a name with all that it refers to, and gives its index. All additions that
  compilation makes are of this form.
* `Pool.Grows P p q`: the pool `q` comes from `p` by additions of items with `P`.
* An index that an addition gave stands for the item in every pool that the first one grows into, unless that pool
  overflowed (`Pool.has_of_put`).
-/

namespace ClassTree

/-- What compilation adds to a pool. -/
inductive Item where
  | utf8 (s : String)
  | int (n : Int32)
  | long (n : Int64)
  | double (d : Double)
  | string (s : String)
  | cls (name : String)
  | field (ref : MemberRef)
  | method (ref : MemberRef)

/-- Adds an item with all that it refers to. -/
def Pool.put (p : Pool) : Item → UInt16 × Pool
  | .utf8 s => p.addUtf8 s
  | .int n => p.add (.int n)
  | .long n => p.add (.long n)
  | .double d => p.add (.double d)
  | .string s => p.addString s
  | .cls name => p.addClass name
  | .field ref => p.addFieldRef ref
  | .method ref => p.addMethodRef ref

/-- The index stands for the item; of equal doubles it may be another one. -/
def Constants.Has (cs : Constants) (i : UInt16) : Item → Prop
  | .utf8 s => cs.utf8? i = some s
  | .int n => cs.get? i = some (.int n)
  | .long n => cs.get? i = some (.long n)
  | .double d => ∃ d', cs.get? i = some (.double d') ∧ d'.canonical = d.canonical
  | .string s => cs.string? i = some s
  | .cls name => cs.className? i = some name
  | .field ref => cs.fieldRef? i = some ref
  | .method ref => cs.methodRef? i = some ref

namespace Pool

/-! ## Growth -/

/-- The second pool comes from the first by additions of items with `P`. -/
inductive Grows (P : Item → Prop) : Pool → Pool → Prop
  | refl (p : Pool) : Grows P p p
  | put {p q : Pool} (item : Item) : P item → Grows P (p.put item).2 q → Grows P p q

variable {P Q : Item → Prop} {p q r : Pool} {c k : Constant} {i : UInt16}

theorem Grows.trans (h : Grows P p q) (h' : Grows P q r) : Grows P p r := by
  induction h with
  | refl => exact h'
  | put item hP _ ih => exact .put item hP (ih h')

theorem Grows.single {item : Item} (hP : P item) : Grows P p (p.put item).2 := .put item hP (.refl _)

/-! An addition with all that it refers to, as single additions one after the other. -/

theorem addString_eq (s : String) : p.addString s = (p.addUtf8 s).2.add (.string (p.addUtf8 s).1) := by
  simp only [addString]

theorem addClass_eq (name : String) : p.addClass name = (p.addUtf8 name).2.add (.cls (p.addUtf8 name).1) := by
  simp only [addClass]

theorem addMember_eq (m : MemberRef) :
    p.addMember m =
      (((p.addClass m.cls).1, ((p.addClass m.cls).2.addUtf8 m.name).1,
        (((p.addClass m.cls).2.addUtf8 m.name).2.addUtf8 m.descriptor).1),
        (((p.addClass m.cls).2.addUtf8 m.name).2.addUtf8 m.descriptor).2) := by
  simp only [addMember]

theorem addMember_pool (m : MemberRef) :
    (p.addMember m).2 = (((p.addClass m.cls).2.addUtf8 m.name).2.addUtf8 m.descriptor).2 := by
  rw [addMember_eq]

theorem invokeStaticDyn_eq (cls name : String) (argc : UInt8) :
    p.invokeStaticDyn cls name argc = ((Instr.invokeStaticDyn (p.put (.cls cls)).1 ((p.put (.cls cls)).2.put (.utf8 name)).1 argc),
      ((p.put (.cls cls)).2.put (.utf8 name)).2) := by
  simp only [invokeStaticDyn, instr, put]

theorem addFieldRef_eq (m : MemberRef) :
    p.addFieldRef m = (p.addMember m).2.add
      (.fieldRef (p.addMember m).1.1 (p.addMember m).1.2.1 (p.addMember m).1.2.2) := by
  simp only [addFieldRef]

theorem addMethodRef_eq (m : MemberRef) :
    p.addMethodRef m = (p.addMember m).2.add
      (.methodRef (p.addMember m).1.1 (p.addMember m).1.2.1 (p.addMember m).1.2.2) := by
  simp only [addMethodRef]

section Invariants

variable {I : Pool → Prop} (hadd : ∀ p c, I p → I (p.add c).2)
include hadd

theorem addUtf8_invariant (hp : I p) (s : String) : I (p.addUtf8 s).2 := hadd p (.utf8 s) hp

theorem addClass_invariant (hp : I p) (name : String) : I (p.addClass name).2 := by
  rw [addClass_eq]
  exact hadd _ _ (addUtf8_invariant hadd hp name)

theorem addMember_invariant (hp : I p) (m : MemberRef) : I (p.addMember m).2 := by
  rw [addMember_pool]
  exact addUtf8_invariant hadd (addUtf8_invariant hadd (addClass_invariant hadd hp m.cls) m.name) m.descriptor

theorem put_invariant (hp : I p) (item : Item) : I (p.put item).2 := by
  cases item with
  | utf8 s => exact hadd p (.utf8 s) hp
  | int n => exact hadd p (.int n) hp
  | long n => exact hadd p (.long n) hp
  | double d => exact hadd p (.double d) hp
  | string s =>
    rw [put, addString_eq]
    exact hadd _ _ (addUtf8_invariant hadd hp s)
  | cls name => exact addClass_invariant hadd hp name
  | field ref =>
    rw [put, addFieldRef_eq]
    exact hadd _ _ (addMember_invariant hadd hp ref)
  | method ref =>
    rw [put, addMethodRef_eq]
    exact hadd _ _ (addMember_invariant hadd hp ref)

/-- An invariant of single additions is one of growth. -/
theorem Grows.invariant (h : Grows P p q) (hp : I p) : I q := by
  induction h with
  | refl => exact hp
  | put item _ _ ih => exact ih (put_invariant hadd hp item)

end Invariants

theorem overflowed_add (h : p.overflowed = true) : (p.add c).2.overflowed = true := by
  unfold add
  split
  · exact h
  · dsimp only
    split
    · exact h
    · rfl

theorem index_add (h : p.index[k]? = some i) : (p.add c).2.index[k]? = some i := by
  unfold add
  split
  · exact h
  · rename_i hnew
    dsimp only
    split
    · rw [Std.HashMap.getElem?_insert]
      split
      · rename_i heq
        rw [← beq_iff_eq.1 heq, hnew] at h
        cases h
      · exact h
    · exact h

/-- The second pool keeps the indices of the first, and did not overflow unless the first did not. -/
structure Later (p q : Pool) : Prop where
  index : ∀ (k : Constant) (i : UInt16), p.index[k]? = some i → q.index[k]? = some i
  overflowed : q.overflowed = false → p.overflowed = false

theorem Later.refl (p : Pool) : p.Later p := ⟨fun _ _ h => h, fun h => h⟩

theorem Later.trans (h : p.Later q) (h' : q.Later r) : p.Later r :=
  ⟨fun k i hi => h'.index k i (h.index k i hi), fun hr => h.overflowed (h'.overflowed hr)⟩

theorem later_add (p : Pool) (c : Constant) : p.Later (p.add c).2 := by
  refine ⟨fun _ _ => index_add, fun hq => ?_⟩
  cases hp : p.overflowed with
  | false => rfl
  | true =>
    rw [overflowed_add hp] at hq
    cases hq

theorem Grows.later (h : Grows P p q) : p.Later q :=
  Grows.invariant (I := p.Later) (fun q c hq => hq.trans (later_add q c)) h (.refl p)

/-! ## Indices -/

/-- Every index that the pool knows is that of a constant equal to what it is kept for. -/
structure WellFormed (p : Pool) : Prop where
  size : p.size ≤ maxEntries
  index : ∀ (k : Constant) (i : UInt16), p.index[k]? = some i → ∃ c, p.constants.get? i = some c ∧ c.canonical = k

theorem wellFormed_empty : empty.WellFormed := ⟨by decide, fun k i h => by simp [empty] at h⟩

theorem get?_push {cs : Constants} (h : cs.get? i = some k) : Constants.get? (cs.push c) i = some k := by
  unfold Constants.get? at h ⊢
  split
  · rename_i h0
    rw [if_pos h0] at h
    cases h
  · rename_i h0
    rw [if_neg h0] at h
    obtain ⟨hlt, -⟩ := Array.getElem?_eq_some_iff.1 h
    rw [Array.getElem?_push, if_neg (Nat.ne_of_lt hlt), h]

theorem get?_push_last {cs : Constants} (h : cs.size < maxEntries) :
    Constants.get? (cs.push c) (cs.size + 1).toUInt16 = some c := by
  have hn : (cs.size + 1).toUInt16.toNat = cs.size + 1 :=
    UInt16.toNat_ofNat_of_lt' (by simp only [maxEntries] at h; change _ < 65536; omega)
  have h0 : (cs.size + 1).toUInt16 ≠ 0 := by
    intro h
    rw [h] at hn
    cases hn
  rw [Constants.get?, if_neg h0, hn]
  simp

theorem WellFormed.add (h : p.WellFormed) : (p.add c).2.WellFormed := by
  unfold Pool.add
  split
  · exact h
  · dsimp only
    split
    · rename_i hlt
      refine ⟨by simp only [Pool.size, Array.size_push] at hlt ⊢; omega, fun k i hi => ?_⟩
      rw [Std.HashMap.getElem?_insert] at hi
      split at hi
      · rename_i heq
        cases hi
        exact ⟨c, get?_push_last hlt, beq_iff_eq.1 heq⟩
      · obtain ⟨c', hc', hk⟩ := h.index k i hi
        exact ⟨c', get?_push hc', hk⟩
    · exact ⟨h.size, h.index⟩

theorem Grows.wellFormed (h : Grows P p q) (hp : p.WellFormed) : q.WellFormed :=
  Grows.invariant (fun _ _ => WellFormed.add) h hp

/-- Unless the pool overflows, the index of an addition is kept for the constant. -/
theorem index_of_add (h : (p.add c).2.overflowed = false) : (p.add c).2.index[c.canonical]? = some (p.add c).1 := by
  cases hi : p.index[c.canonical]? with
  | some i => simp only [add, hi]
  | none =>
    simp only [add, hi] at h ⊢
    split
    · simp
    · rename_i hfull
      rw [if_neg hfull] at h
      cases h

/-- A later pool has these constants and did not overflow. -/
def Within (p : Pool) (cs : Constants) : Prop :=
  ∃ q, p.Later q ∧ q.WellFormed ∧ q.overflowed = false ∧ q.constants = cs

variable {cs : Constants}

theorem Within.of_later (h : p.Later q) (hq : q.Within cs) : p.Within cs := by
  obtain ⟨r, hr, hrest⟩ := hq
  exact ⟨r, h.trans hr, hrest⟩

theorem Within.of_grows (h : Grows P p q) (hq : q.Within cs) : p.Within cs := hq.of_later h.later

theorem Within.of_add (h : (p.add c).2.Within cs) : p.Within cs := h.of_later (later_add p c)

theorem Within.get? (h : (p.add c).2.Within cs) : ∃ k, cs.get? (p.add c).1 = some k ∧ k.canonical = c.canonical := by
  obtain ⟨q, hlater, hwf, hover, rfl⟩ := h
  exact hwf.index _ _ (hlater.index _ _ (index_of_add (hlater.overflowed hover)))

/-- Only doubles are equal to others without being the same. -/
theorem eq_of_canonical (hk : ∀ d, k ≠ .double d) (h : c.canonical = k) : c = k := by
  cases c with
  | double d => exact absurd h.symm (hk d.canonical)
  | _ => exact h

theorem Within.get?_same (h : (p.add c).2.Within cs) (hc : ∀ d, c ≠ .double d) (hcanon : c.canonical = c) :
    cs.get? (p.add c).1 = some c := by
  obtain ⟨k, hk, hkc⟩ := h.get?
  rw [hcanon] at hkc
  rw [hk, eq_of_canonical hc hkc]

theorem has_utf8 {s : String} (h : (p.addUtf8 s).2.Within cs) : cs.utf8? (p.addUtf8 s).1 = some s := by
  rw [Constants.utf8?, show cs.get? (p.addUtf8 s).1 = _ from h.get?_same (by simp) rfl]

theorem has_cls {name : String} (h : (p.addClass name).2.Within cs) : cs.className? (p.addClass name).1 = some name := by
  rw [addClass_eq] at h ⊢
  rw [Constants.className?, h.get?_same (by simp) rfl]
  exact has_utf8 h.of_add

theorem has_member {m : MemberRef} (h : (p.addMember m).2.Within cs) :
    cs.member? (p.addMember m).1.1 (p.addMember m).1.2.1 (p.addMember m).1.2.2 = some m := by
  rw [addMember_eq] at h ⊢
  dsimp only at h ⊢
  simp [Constants.member?, has_utf8 h, has_utf8 (Within.of_add h), has_cls (Within.of_add (Within.of_add h))]

/-- The index of an addition stands for the item in every later pool that did not overflow. -/
theorem has_of_put (item : Item) (h : (p.put item).2.Within cs) : cs.Has (p.put item).1 item := by
  cases item with
  | utf8 s => exact has_utf8 h
  | int n => exact Within.get?_same (c := .int n) h (by simp) rfl
  | long n => exact Within.get?_same (c := .long n) h (by simp) rfl
  | double d =>
    obtain ⟨k, hk, hkd⟩ := Within.get? (c := .double d) h
    cases k with
    | double d' => exact ⟨d', hk, by simpa [Constant.canonical] using hkd⟩
    | _ => cases hkd
  | string s =>
    rw [put, addString_eq] at h ⊢
    rw [Constants.Has, Constants.string?, h.get?_same (by simp) rfl]
    exact has_utf8 h.of_add
  | cls name => exact has_cls h
  | field ref =>
    rw [put, addFieldRef_eq] at h ⊢
    rw [Constants.Has, Constants.fieldRef?, h.get?_same (by simp) rfl]
    exact has_member h.of_add
  | method ref =>
    rw [put, addMethodRef_eq] at h ⊢
    rw [Constants.Has, Constants.methodRef?, h.get?_same (by simp) rfl]
    exact has_member h.of_add

end Pool

end ClassTree
