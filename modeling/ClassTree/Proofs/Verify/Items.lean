import ClassTree.Proofs.Pool
import ClassTree.Proofs.Verify.Accepted

/-!
# Pools of valid items

`Item.Valid`: the names and descriptors of an item can be read. If only valid items are added to an empty pool that does
not overflow, its constants are accepted (`Pool.Grows.verify`).
-/

namespace ClassTree

/-- What verification asks of the names and descriptors of an item. -/
def Item.Valid : Item → Prop
  | .utf8 _ | .int _ | .long _ | .double _ | .string _ => True
  | .cls name => ∃ n, Name.parse? name = some n
  | .field ref => (∃ n, Name.parse? ref.cls = some n) ∧ ref.name ≠ "" ∧ ∃ t, Ty.ofFieldDescriptor? ref.descriptor = some t
  | .method ref => (∃ n, Name.parse? ref.cls = some n) ∧ ref.name ≠ "" ∧
    ∃ sig, Signature.ofDescriptor? ref.descriptor = some sig

namespace Pool

variable {P : Item → Prop} {p q : Pool} {cs : Constants} {c : Constant}

/-- The constants of the pool are accepted among those of a class file. -/
def Accepted (p : Pool) (cs : Constants) : Prop := ∀ i c, p.constants.get? i = some c → cs.verifyAt i c = .ok ()

theorem accepted_empty : empty.Accepted cs := by
  intro i c h
  simp [Constants.get?, empty] at h

theorem get?_push_cases {cs : Constants} {i : UInt16} {k : Constant}
    (h : Constants.get? (cs.push c) i = some k) : cs.get? i = some k ∨ i = (cs.size + 1).toUInt16 ∧ k = c := by
  have hi : i.toNat < 65536 := i.toNat_lt
  unfold Constants.get? at h ⊢
  split at h
  · cases h
  · rename_i h0
    rw [if_neg h0]
    have hpos : i.toNat ≠ 0 := fun heq => h0 (UInt16.toNat_inj.1 heq)
    rw [Array.getElem?_push] at h
    split at h
    · rename_i heq
      cases h
      refine .inr ⟨?_, rfl⟩
      rw [← heq, Nat.sub_add_cancel (by omega)]
      simp
    · exact .inl h

/-- An addition keeps constants accepted if the constant itself is. -/
theorem Accepted.add (hp : p.Accepted cs) (hc : cs.verifyAt (p.add c).1 c = .ok ()) : (p.add c).2.Accepted cs := by
  unfold Pool.add at hc ⊢
  split
  · exact hp
  · rename_i hnew
    simp only [hnew] at hc
    split
    · rename_i hlt
      rw [if_pos hlt] at hc
      intro i k hk
      rcases get?_push_cases hk with hold | ⟨rfl, rfl⟩
      · exact hp i k hold
      · exact hc
    · exact hp

theorem Accepted.addUtf8 (hp : p.Accepted cs) (s : String) : (p.addUtf8 s).2.Accepted cs := Accepted.add hp rfl

theorem Accepted.addClass (hp : p.Accepted cs) {name : String} (hw : (p.addClass name).2.Within cs)
    (hname : (Item.cls name).Valid) : (p.addClass name).2.Accepted cs := by
  obtain ⟨n, hn⟩ := hname
  rw [addClass_eq] at hw ⊢
  refine Accepted.add (hp.addUtf8 name) ?_
  simp only [Constants.verifyAt, bind_eq_ok, orFail_eq_ok]
  exact ⟨name, has_utf8 hw.of_add, n, hn, rfl⟩

theorem Accepted.addMember (hp : p.Accepted cs) {m : MemberRef} (hw : (p.addMember m).2.Within cs)
    (hcls : (Item.cls m.cls).Valid) : (p.addMember m).2.Accepted cs := by
  rw [addMember_pool] at hw ⊢
  exact ((hp.addClass (Within.of_add (Within.of_add hw)) hcls).addUtf8 m.name).addUtf8 m.descriptor

/-- The addition of a valid item keeps constants accepted. -/
theorem Accepted.put (hp : p.Accepted cs) {item : Item} (hvalid : item.Valid) (hw : (p.put item).2.Within cs) :
    (p.put item).2.Accepted cs := by
  have hhas := has_of_put item hw
  cases item with
  | utf8 s => exact hp.addUtf8 s
  | int n => exact Accepted.add hp rfl
  | long n => exact Accepted.add hp rfl
  | double d => exact Accepted.add hp rfl
  | string s =>
    rw [Pool.put, addString_eq] at hw ⊢
    refine Accepted.add (hp.addUtf8 s) ?_
    simp only [Constants.verifyAt, bind_eq_ok, orFail_eq_ok]
    exact ⟨s, has_utf8 hw.of_add, rfl⟩
  | cls name => exact hp.addClass hw hvalid
  | field ref =>
    obtain ⟨⟨n, hn⟩, hname, t, ht⟩ := hvalid
    rw [Pool.put, addFieldRef_eq] at hw hhas ⊢
    refine Accepted.add (hp.addMember hw.of_add ⟨n, hn⟩) ?_
    simp only [Constants.verifyAt, bind_eq_ok, orFail_eq_ok, require_eq_ok]
    exact ⟨ref, hhas, n, hn, (), by simpa using hname, t, ht, rfl⟩
  | method ref =>
    obtain ⟨⟨n, hn⟩, hname, sig, hsig⟩ := hvalid
    rw [Pool.put, addMethodRef_eq] at hw hhas ⊢
    refine Accepted.add (hp.addMember hw.of_add ⟨n, hn⟩) ?_
    simp only [Constants.verifyAt, bind_eq_ok, orFail_eq_ok, require_eq_ok]
    exact ⟨ref, hhas, n, hn, (), by simpa using hname, sig, hsig, rfl⟩

theorem Grows.accepted (h : Grows Item.Valid p q) (hw : q.Within cs) (hp : p.Accepted cs) : q.Accepted cs := by
  induction h with
  | refl => exact hp
  | put item hvalid hrest ih => exact ih hw (hp.put hvalid (hw.of_grows hrest))

/-- The constants of a pool to which only valid items were added are accepted, unless it overflowed. -/
theorem Grows.verify (h : Grows Item.Valid empty q) (hover : q.overflowed = false) : q.constants.verify = .ok () := by
  have hwf := h.wellFormed wellFormed_empty
  have haccepted := h.accepted ⟨q, .refl q, hwf, hover, rfl⟩ accepted_empty
  refine Constants.verify_eq_ok.2 fun j k hk => haccepted _ k ?_
  have hj : j < q.constants.size := (Array.getElem?_eq_some_iff.1 hk).1
  have hsize : q.constants.size ≤ 65534 := hwf.size
  have hn : (j + 1).toUInt16.toNat = j + 1 := UInt16.toNat_ofNat_of_lt' (by change _ < 65536; omega)
  have h0 : (j + 1).toUInt16 ≠ 0 := by
    intro h
    rw [h] at hn
    cases hn
  rw [Constants.get?, if_neg h0, hn]
  exact hk

end Pool

end ClassTree
