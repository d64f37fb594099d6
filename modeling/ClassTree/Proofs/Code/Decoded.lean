import ClassTree.Proofs.Code.Placed

/-!
# Decoding code that was made of instructions

`Instr.Stands is o i`: the instruction `i` of the list `is` stands behind `o` bytes. Code that was made of instructions
decodes iff each of them, where it stands, has an effect, and the effects are then found there (`CodeCheck.decode_effects`,
`CodeCheck.exists_decode`).
-/

namespace ClassTree

/-- The instruction stands in a list behind so many bytes. -/
def Instr.Stands (is : List Instr) (o : Nat) (i : Instr) : Prop :=
  ∃ before after, is = before ++ i :: after ∧ o = (before.flatMap Instr.encode).length

namespace Instr

theorem size_pos (i : Instr) : 0 < i.size := by
  rw [← length_encode, encode]
  simp

theorem stands_cons {is : List Instr} {i j : Instr} {o : Nat} :
    Stands (j :: is) o i ↔ o = 0 ∧ i = j ∨ ∃ o', o = j.size + o' ∧ Stands is o' i := by
  constructor
  · rintro ⟨before, after, heq, rfl⟩
    cases before with
    | nil =>
      rw [List.nil_append, List.cons.injEq] at heq
      exact .inl ⟨rfl, heq.1.symm⟩
    | cons k before =>
      rw [List.cons_append, List.cons.injEq] at heq
      obtain ⟨rfl, rfl⟩ := heq
      refine .inr ⟨_, ?_, before, after, rfl, rfl⟩
      rw [List.flatMap_cons, List.length_append, length_encode]
  · rintro (⟨rfl, rfl⟩ | ⟨_, rfl, before, after, rfl, rfl⟩)
    · exact ⟨[], is, rfl, rfl⟩
    · refine ⟨j :: before, after, rfl, ?_⟩
      rw [List.flatMap_cons, List.length_append, length_encode]

/-- Every instruction of a list stands somewhere. -/
theorem exists_stands {is : List Instr} {i : Instr} (h : i ∈ is) : ∃ o, Stands is o i := by
  obtain ⟨before, after, rfl⟩ := List.append_of_mem h
  exact ⟨_, before, after, rfl, rfl⟩

end Instr

namespace CodeCheck

variable {c : CodeCheck} {is : List Instr} {i : Instr}

/-- The code from an offset on is that of a list of instructions. -/
def From (c : CodeCheck) (offset : Nat) (is : List Instr) : Prop :=
  ∃ before, c.code.toList = before ++ is.flatMap Instr.encode ∧ before.length = offset

theorem From.head {offset : Nat} (h : c.From offset (i :: is)) : Instr.at? c.code offset = some i := by
  obtain ⟨before, hcode, hlen⟩ := h
  refine Block.At.one (i := i) ⟨before, is.flatMap Instr.encode, ?_, hlen⟩
  simpa [encodeCode, Block.one] using hcode

theorem From.tail {offset : Nat} (h : c.From offset (i :: is)) : c.From (offset + i.size) is := by
  obtain ⟨before, hcode, rfl⟩ := h
  refine ⟨before ++ i.encode, ?_, ?_⟩
  · simpa using hcode
  · rw [List.length_append, Instr.length_encode]

theorem From.lt_size {offset : Nat} (h : c.From offset (i :: is)) : offset < c.code.size := by
  have hat := h.head
  by_contra hge
  rw [Instr.at?, Array.getElem?_eq_none (by omega)] at hat
  cases hat

theorem decodeFrom_nil {offset : Nat} (h : c.From offset []) (fuel : Nat) (done : Array (Option Effect)) :
    c.decodeFrom fuel offset done = .ok done := by
  obtain ⟨before, hcode, rfl⟩ := h
  cases fuel with
  | zero => rfl
  | succ fuel =>
    have hend : c.code[before.length]? = none := by
      rw [← Array.getElem?_toList, hcode]
      simp
    rw [decodeFrom, hend]

theorem decodeFrom_cons {offset : Nat} (h : c.From offset (i :: is)) (fuel : Nat) (done : Array (Option Effect)) :
    c.decodeFrom (fuel + 1) offset done =
      (c.effect offset i >>= fun e => c.decodeFrom fuel (offset + i.size) (done.setIfInBounds offset (some e))) := by
  obtain ⟨b, hb, hat⟩ := Option.bind_eq_some_iff.1 h.head
  obtain ⟨op, hop, hi⟩ := Option.bind_eq_some_iff.1 hat
  simp only [decodeFrom, hb, hop, hi]

theorem decodeFrom_effects {fuel offset : Nat} {done final : Array (Option Effect)} (hfrom : c.From offset is)
    (hfuel : is.length ≤ fuel) (hsize : done.size = c.code.size) (h : c.decodeFrom fuel offset done = .ok final) :
    (∀ o, o < offset → final[o]? = done[o]?) ∧
      ∀ o i, Instr.Stands is o i → ∃ e, c.effect (offset + o) i = .ok e ∧ final[offset + o]? = some (some e) := by
  induction is generalizing fuel offset done with
  | nil =>
    rw [decodeFrom_nil hfrom] at h
    cases h
    refine ⟨fun _ _ => rfl, ?_⟩
    rintro o i ⟨before, after, heq, -⟩
    simp at heq
  | cons j is ih =>
    obtain ⟨fuel, rfl⟩ : ∃ k, fuel = k + 1 := ⟨fuel - 1, by simp at hfuel; omega⟩
    rw [decodeFrom_cons hfrom, bind_eq_ok] at h
    obtain ⟨e, he, h⟩ := h
    have hpos : 0 < j.size := j.size_pos
    obtain ⟨hbefore, hrest⟩ := ih hfrom.tail (by simpa using hfuel) (by rw [Array.size_setIfInBounds, hsize]) h
    refine ⟨fun o ho => ?_, fun o i hi => ?_⟩
    · rw [hbefore o (by omega), Array.getElem?_setIfInBounds_ne (by omega)]
    · rcases Instr.stands_cons.1 hi with ⟨rfl, rfl⟩ | ⟨o', rfl, hi'⟩
      · refine ⟨e, he, ?_⟩
        rw [Nat.add_zero, hbefore offset (by omega)]
        exact Array.getElem?_setIfInBounds_self_of_lt (by rw [hsize]; exact hfrom.lt_size)
      · rw [← Nat.add_assoc]
        exact hrest o' i hi'

/-- Effects are found only where instructions stand. -/
theorem decodeFrom_stands {fuel offset : Nat} {done final : Array (Option Effect)} (hfrom : c.From offset is)
    (h : c.decodeFrom fuel offset done = .ok final) {o : Nat} {e : Effect} (he : final[o]? = some (some e)) :
    done[o]? = some (some e) ∨ ∃ o' i, o = offset + o' ∧ Instr.Stands is o' i ∧ c.effect o i = .ok e := by
  induction is generalizing fuel offset done with
  | nil =>
    rw [decodeFrom_nil hfrom] at h
    cases h
    exact .inl he
  | cons j is ih =>
    cases fuel with
    | zero =>
      cases h
      exact .inl he
    | succ fuel =>
      rw [decodeFrom_cons hfrom, bind_eq_ok] at h
      obtain ⟨e', he', h⟩ := h
      rcases ih hfrom.tail h with hdone | ⟨o', i, rfl, hi, hei⟩
      · rw [Array.getElem?_setIfInBounds] at hdone
        split at hdone
        · rename_i heq
          subst heq
          split at hdone
          · cases hdone
            exact .inr ⟨0, j, rfl, Instr.stands_cons.2 (.inl ⟨rfl, rfl⟩), he'⟩
          · cases hdone
        · exact .inl hdone
      · exact .inr ⟨j.size + o', i, Nat.add_assoc _ _ _, Instr.stands_cons.2 (.inr ⟨o', rfl, hi⟩), hei⟩

theorem exists_decodeFrom {fuel offset : Nat} (hfrom : c.From offset is) (hfuel : is.length ≤ fuel)
    (heffect : ∀ o i, Instr.Stands is o i → ∃ e, c.effect (offset + o) i = .ok e) (done : Array (Option Effect)) :
    ∃ final, c.decodeFrom fuel offset done = .ok final := by
  induction is generalizing fuel offset done with
  | nil => exact ⟨done, decodeFrom_nil hfrom fuel done⟩
  | cons j is ih =>
    obtain ⟨fuel, rfl⟩ : ∃ k, fuel = k + 1 := ⟨fuel - 1, by simp at hfuel; omega⟩
    obtain ⟨e, he⟩ := heffect 0 j (Instr.stands_cons.2 (.inl ⟨rfl, rfl⟩))
    rw [decodeFrom_cons hfrom]
    rw [Nat.add_zero] at he
    have hrest : ∀ o i, Instr.Stands is o i → ∃ e, c.effect (offset + j.size + o) i = .ok e := by
      intro o i hi
      rw [Nat.add_assoc]
      exact heffect _ i (Instr.stands_cons.2 (.inr ⟨o, rfl, hi⟩))
    obtain ⟨final, hfinal⟩ := ih hfrom.tail (by simpa using hfuel) hrest (done.setIfInBounds offset (some e))
    exact ⟨final, bind_eq_ok.2 ⟨e, he, hfinal⟩⟩

theorem length_le_codeSize (is : List Instr) : is.length ≤ (is.flatMap Instr.encode).length := by
  induction is with
  | nil => simp
  | cons i is ih =>
    have hpos : 0 < i.size := i.size_pos
    rw [List.flatMap_cons, List.length_append, Instr.length_encode, List.length_cons]
    omega

section Block

variable {b : Block}

theorem from_encode (hcode : c.code = b.encode) : c.From 0 b.instrs.toList :=
  ⟨[], by rw [hcode, Block.encode]; simp [encodeCode], rfl⟩

theorem length_le_size (hcode : c.code = b.encode) : b.instrs.toList.length ≤ c.code.size := by
  rw [hcode, Block.encode, List.size_toArray, encodeCode]
  exact length_le_codeSize _

/-- The effects of a block's instructions are found where these stand. -/
theorem decode_effects {effects : Array (Option Effect)} (hcode : c.code = b.encode) (h : c.decode = .ok effects) {o : Nat}
    (hi : Instr.Stands b.instrs.toList o i) : ∃ e, c.effect o i = .ok e ∧ effects[o]? = some (some e) := by
  have hall := (decodeFrom_effects (from_encode hcode) (length_le_size hcode) (by simp) h).2 o i hi
  rwa [Nat.zero_add] at hall

/-- Where an effect is found, an instruction of the block stands. -/
theorem decode_stands {effects : Array (Option Effect)} (hcode : c.code = b.encode) (h : c.decode = .ok effects) {o : Nat}
    {e : Effect} (he : effects[o]? = some (some e)) : ∃ i, Instr.Stands b.instrs.toList o i ∧ c.effect o i = .ok e := by
  rcases decodeFrom_stands (from_encode hcode) h he with hnone | ⟨o', i, rfl, hi, hei⟩
  · rw [Array.getElem?_replicate] at hnone
    split at hnone <;> cases hnone
  · rw [Nat.zero_add] at hei ⊢
    exact ⟨i, hi, hei⟩

/-- A block decodes if each of its instructions has an effect. -/
theorem exists_decode (hcode : c.code = b.encode)
    (heffect : ∀ o i, Instr.Stands b.instrs.toList o i → ∃ e, c.effect o i = .ok e) : ∃ effects, c.decode = .ok effects := by
  refine exists_decodeFrom (from_encode hcode) (length_le_size hcode) (fun o i hi => ?_) _
  rw [Nat.zero_add]
  exact heffect o i hi

end Block

end CodeCheck

end ClassTree
