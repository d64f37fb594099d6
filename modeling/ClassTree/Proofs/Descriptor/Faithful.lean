import Mathlib
import ClassTree.Proofs.Descriptor

/-!
# Descriptors are faithful

A text is read as a type or as a signature iff it is its descriptor, so two methods have the same descriptor iff they have the
same signature (`Signature.ofDescriptor?_iff`).

A text in memory is a sequence of bytes, and a cut at an offset that is within a character or behind the end fails.
`Ty.scanAt` and `Signature.readAt` are the readers with such cuts, and the loop over the parameters bounded. No cut fails,
whatever characters are in the text, and a text of `n` characters takes no more than `n` rounds: the results are those of
`Ty.scan` and `Signature.ofDescriptor?` (`Ty.scanAt_eq`, `Signature.readAt_eq`).
-/

namespace ClassTree

/-! ## Texts that are read are descriptors -/

/-- Up to the first place of a character there is none, and behind it the rest. -/
theorem eq_of_dropWhile_ne {c d : Char} {cs tail : List Char} (h : cs.dropWhile (· != c) = d :: tail) :
    cs = cs.takeWhile (· != c) ++ c :: tail := by
  have hd : d = c := by
    have hstop := List.head_dropWhile_not (· != c) (l := cs) (by simp [h])
    simpa [h] using hstop
  rw [← hd, ← h, hd, List.takeWhile_append_dropWhile]

namespace Ty

theorem toList_descriptor_of_ofLetter? {c : Char} {t : Ty} (h : ofLetter? c = some t) : t.descriptor.toList = [c] := by
  unfold ofLetter? at h
  split at h <;> cases h <;> rfl

/-- What is read off a text is the descriptor that it begins with. -/
theorem eq_descriptor_of_scan {cs rest : List Char} {t : Ty} (h : scan cs = some (t, rest)) :
    cs = t.descriptor.toList ++ rest := by
  unfold scan at h
  split at h
  · cases h
  · rename_i text
    split at h
    · cases h
    · rename_i hdrop
      obtain ⟨n, hn, heq⟩ := Option.map_eq_some_iff.1 h
      cases heq
      have htext : n.text.toList = text.takeWhile (· != ';') := by rw [Name.text_of_parse? hn, String.toList_ofList]
      rw [toList_descriptor_ref, htext, List.cons_append, List.append_assoc, List.singleton_append,
        ← eq_of_dropWhile_ne hdrop]
  · obtain ⟨u, hu, heq⟩ := Option.map_eq_some_iff.1 h
    cases heq
    rw [toList_descriptor_of_ofLetter? hu, List.singleton_append]

theorem ofChars?_eq_some {cs : List Char} {t : Ty} (h : ofChars? cs = some t) : scan cs = some (t, []) := by
  unfold ofChars? at h
  split at h
  · rename_i hscan
    cases h
    exact hscan
  · cases h

/-- A text is read as a type iff it is its descriptor; no text is read as the type of the null literal. -/
theorem ofDescriptor?_iff {s : String} {t : Ty} : ofDescriptor? s = some t ↔ t.descriptor = s ∧ t ≠ .null := by
  constructor
  · intro h
    have hscan := ofChars?_eq_some h
    refine ⟨String.toList_inj.1 ?_, ne_null_of_scan hscan⟩
    rw [eq_descriptor_of_scan hscan, List.append_nil]
  · rintro ⟨rfl, hnull⟩
    rw [ofDescriptor?_descriptor, erased_of_ne hnull]

end Ty

namespace Signature

/-- The text that is read has the descriptors of the parameters that are added to those before it. -/
theorem eq_descriptors_of_scanParams {cs : List Char} {acc : List Ty} {s : Signature} (h : scanParams cs acc = some s) :
    ∃ params, s.params = acc.reverse ++ params ∧ s.ret ≠ .null ∧
      cs = (params.map Ty.descriptor).flatMap String.toList ++ ')' :: s.ret.descriptor.toList := by
  fun_induction scanParams cs acc with
  | case1 => cases h
  | case2 acc cs =>
    obtain ⟨ret, hret, rfl⟩ := Option.map_eq_some_iff.1 h
    have hscan := Ty.ofChars?_eq_some hret
    exact ⟨[], (List.append_nil _).symm, Ty.ne_null_of_scan hscan, by
      rw [Ty.eq_descriptor_of_scan hscan, List.append_nil]
      rfl⟩
  | case3 => cases h
  | case4 => cases h
  | case5 acc c cs hc t rest hscan hlt hvoid ih =>
    obtain ⟨params, hparams, hret, hrest⟩ := ih h
    refine ⟨t :: params, by rw [hparams, List.reverse_cons, List.append_assoc, List.singleton_append], hret, ?_⟩
    rw [Ty.eq_descriptor_of_scan hscan, hrest, List.map_cons, List.flatMap_cons, List.append_assoc]

/-- A text is read as a signature iff it is its descriptor and the types are such that they can be declared. -/
theorem ofDescriptor?_iff {text : String} {s : Signature} :
    ofDescriptor? text = some s ↔ s.descriptor = text ∧ (∀ t ∈ s.params, t.IsValue) ∧ s.ret ≠ .null := by
  constructor
  · intro h
    have hvalues := isValue_of_ofDescriptor? h
    unfold ofDescriptor? at h
    split at h
    · rename_i rest htext
      obtain ⟨params, hparams, hret, hrest⟩ := eq_descriptors_of_scanParams h
      refine ⟨String.toList_inj.1 ?_, hvalues, hret⟩
      rw [toList_descriptor, htext, hrest, hparams, List.reverse_nil, List.nil_append]
    · cases h
  · rintro ⟨rfl, hparams, hret⟩
    exact ofDescriptor?_of_isValue hparams hret

end Signature

/-! ## Cuts at offsets -/

/-- Why the reading of a text fails before it has a result. -/
inductive ReadFault where
  /-- A cut is within a character or behind the end. -/
  | badCut
  /-- A loop takes more rounds than it may. -/
  | tooManyRounds
deriving DecidableEq

/-- The number of bytes of a text. -/
def byteLength (cs : List Char) : Nat := (cs.map Char.utf8Size).sum

/-- Cuts a text in two at the offset of a byte. -/
def cutAt : Nat → List Char → Except ReadFault (List Char × List Char)
  | 0, cs => .ok ([], cs)
  | _ + 1, [] => .error .badCut
  | n + 1, c :: cs =>
    if c.utf8Size ≤ n + 1 then do
      let (front, back) ← cutAt (n + 1 - c.utf8Size) cs
      return (c :: front, back)
    else .error .badCut

/-- The second letter here has two bytes. -/
example : cutAt 2 ['L', 'é', ';'] = .error .badCut := rfl

/-- What is behind an offset. -/
def sliceFrom (start : Nat) (cs : List Char) : Except ReadFault (List Char) := do return (← cutAt start cs).2

/-- What is between two offsets. -/
def slice (start stop : Nat) (cs : List Char) : Except ReadFault (List Char) := do sliceFrom start (← cutAt stop cs).1

/-- The offset at which a character first stands in a text. -/
def offsetOf? (c : Char) : List Char → Option Nat
  | [] => none
  | d :: cs => if d = c then some 0 else (offsetOf? c cs).map (d.utf8Size + ·)

/-- A cut at the end of a character does not fail. -/
theorem cutAt_append (front back : List Char) : cutAt (byteLength front) (front ++ back) = .ok (front, back) := by
  induction front with
  | nil => exact cutAt.eq_1 back
  | cons c front ih =>
    have hpos := c.utf8Size_pos
    obtain ⟨n, hn⟩ : ∃ n, byteLength (c :: front) = n + 1 :=
      ⟨c.utf8Size + byteLength front - 1, by rw [byteLength, List.map_cons, List.sum_cons, ← byteLength]; omega⟩
    have hsum : c.utf8Size + byteLength front = n + 1 := by rw [← hn]; rfl
    rw [hn, List.cons_append, cutAt, if_pos (by omega), ← hsum, Nat.add_sub_cancel_left, ih]
    rfl

theorem sliceFrom_append (front back : List Char) : sliceFrom (byteLength front) (front ++ back) = .ok back := by
  rw [sliceFrom, cutAt_append]
  rfl

theorem slice_append (front middle back : List Char) :
    slice (byteLength front) (byteLength (front ++ middle)) (front ++ middle ++ back) = .ok middle := by
  rw [slice, cutAt_append]
  exact sliceFrom_append front middle

theorem offsetOf?_eq (c : Char) (cs : List Char) :
    offsetOf? c cs =
      if cs.dropWhile (· != c) = [] then none else some (byteLength (cs.takeWhile (· != c))) := by
  induction cs with
  | nil => rfl
  | cons d cs ih =>
    rw [offsetOf?]
    by_cases h : d = c
    · simp [h, byteLength]
    · rw [if_neg h, ih, List.dropWhile_cons_of_pos (by simpa using h), List.takeWhile_cons_of_pos (by simpa using h)]
      split <;> rfl

/-! ## The readers with cuts -/

namespace Ty

/-- Reads the code of one type off the front of a text that is cut at offsets. -/
def scanAt : List Char → Except ReadFault (Option (Ty × List Char))
  | [] => .ok none
  | c :: cs =>
    if c = 'L' then
      match offsetOf? ';' (c :: cs) with
      | none => .ok none
      | some stop => do
        let text ← slice 1 stop (c :: cs)
        match Name.parse? (String.ofList text) with
        | none => return none
        | some n => return some (.ref n, ← sliceFrom (stop + 1) (c :: cs))
    else .ok ((ofLetter? c).map fun t => (t, cs))

/-- Reads the code of one type that is the whole text. -/
def readAt (cs : List Char) : Except ReadFault (Option Ty) := do
  match ← scanAt cs with
  | some (t, []) => return some t
  | _ => return none

/-- No cut fails: the name of a class stands between characters of one byte each. -/
theorem scanAt_eq (cs : List Char) : scanAt cs = .ok (scan cs) := by
  cases cs with
  | nil => rfl
  | cons c cs =>
    rw [scanAt]
    split
    · rename_i hc
      subst hc
      rw [offsetOf?_eq, List.dropWhile_cons_of_pos (by decide), List.takeWhile_cons_of_pos (by decide), scan]
      cases hdrop : cs.dropWhile (· != ';') with
      | nil => simp
      | cons d tail =>
        have htext : 'L' :: cs = ['L'] ++ cs.takeWhile (· != ';') ++ ([';'] ++ tail) := by
          rw [List.append_assoc, List.singleton_append, List.singleton_append, ← eq_of_dropWhile_ne hdrop]
        have hname : slice 1 (byteLength ('L' :: cs.takeWhile (· != ';'))) ('L' :: cs) = .ok (cs.takeWhile (· != ';')) := by
          rw [htext]
          exact slice_append ['L'] _ _
        have htail : sliceFrom (byteLength ('L' :: cs.takeWhile (· != ';')) + 1) ('L' :: cs) = .ok tail := by
          rw [htext, ← List.append_assoc]
          have hlength : byteLength (['L'] ++ cs.takeWhile (· != ';') ++ [';']) =
              byteLength ('L' :: cs.takeWhile (· != ';')) + 1 := by
            simp [byteLength]
            rfl
          rw [← hlength]
          exact sliceFrom_append _ _
        rw [if_neg (List.cons_ne_nil _ _)]
        dsimp only
        rw [hname, htail]
        dsimp only [bind, Except.bind]
        cases Name.parse? (String.ofList (cs.takeWhile (· != ';'))) <;> rfl
    · rename_i hc
      rw [scan]
      exact hc

theorem readAt_eq (cs : List Char) : readAt cs = .ok (ofChars? cs) := by
  rw [readAt, scanAt_eq]
  show (match scan cs with
    | some (t, []) => Except.ok (some t)
    | _ => Except.ok none) = _
  rw [ofChars?]
  split <;> simp only [*]

end Ty

namespace Signature

/-- Reads parameter types up to the closing bracket, then the result type, in a number of rounds that is bounded. -/
def readParams : Nat → List Char → List Ty → Except ReadFault (Option Signature)
  | 0, _, _ => .error .tooManyRounds
  | rounds + 1, cs, acc =>
    if cs.head? = some ')' then do
      let ret ← Ty.readAt (← sliceFrom 1 cs)
      return ret.map fun ret => ⟨acc.reverse, ret⟩
    else do
      match ← Ty.scanAt cs with
      | none => return none
      | some (t, rest) => if t.isVoid then return none else readParams rounds rest (t :: acc)

/-- Reads a signature in a number of rounds that is bounded. -/
def readAt (rounds : Nat) (s : String) : Except ReadFault (Option Signature) :=
  match s.toList with
  | '(' :: rest => readParams rounds rest []
  | _ => .ok none

theorem sliceFrom_one {c : Char} (hc : c.utf8Size = 1) (cs : List Char) : sliceFrom 1 (c :: cs) = .ok cs := by
  rw [← hc]
  exact sliceFrom_append [c] cs

/-- One round of the loop over the parameters. -/
theorem scanParams_cons {c : Char} (hc : c ≠ ')') (cs : List Char) (acc : List Ty) :
    scanParams (c :: cs) acc = (Ty.scan (c :: cs)).bind fun (t, rest) => if t.isVoid then none else scanParams rest (t :: acc) := by
  rw [scanParams, if_neg hc]
  split <;> simp only [*, Option.bind_none, Option.bind_some]

/-- A round takes at least one character off the text. -/
theorem readParams_eq {rounds : Nat} {cs : List Char} (h : cs.length < rounds) (acc : List Ty) :
    readParams rounds cs acc = .ok (scanParams cs acc) := by
  induction rounds generalizing cs acc with
  | zero => exact absurd h (Nat.not_lt_zero _)
  | succ rounds ih =>
    cases cs with
    | nil =>
      rw [scanParams]
      rfl
    | cons c cs =>
      rw [readParams, List.head?_cons]
      by_cases hc : c = ')'
      · subst hc
        rw [if_pos rfl, sliceFrom_one rfl, scanParams, if_pos rfl]
        show (do let ret ← Ty.readAt cs; return ret.map _) = _
        rw [Ty.readAt_eq]
        rfl
      · rw [if_neg (by simpa using hc), Ty.scanAt_eq, scanParams_cons hc]
        cases hscan : Ty.scan (c :: cs) with
        | none => rfl
        | some front =>
          obtain ⟨t, rest⟩ := front
          have hshorter := Ty.scan_length hscan
          rw [List.length_cons] at h hshorter
          show (if t.isVoid then Except.ok none else readParams rounds rest (t :: acc)) = _
          rw [ih (by omega), Option.bind_some]
          dsimp only
          split <;> rfl

/-- No cut fails, and the loop takes no more rounds than the text has characters. -/
theorem readAt_eq (s : String) {rounds : Nat} (h : s.length ≤ rounds) : readAt rounds s = .ok (ofDescriptor? s) := by
  rw [← String.length_toList] at h
  rw [readAt, ofDescriptor?]
  cases hs : s.toList with
  | nil => rfl
  | cons c cs =>
    rw [hs] at h
    by_cases hc : c = '('
    · subst hc
      exact readParams_eq h []
    · simp [hc]

end Signature

/-! ## Faithfulness -/

/-- A text is read as a signature iff it is its descriptor, parameters have values, and the result is not the type of the null
literal; it is read as a type iff it is its descriptor. Both readers come to a result, with no cut that fails. -/
theorem Signature.ofDescriptor?_faithful (s : String) :
    (∀ sig : Signature, Signature.ofDescriptor? s = some sig ↔
      sig.descriptor = s ∧ (∀ t ∈ sig.params, t ≠ .void ∧ t ≠ .null) ∧ sig.ret ≠ .null) ∧
    (∀ t : Ty, Ty.ofDescriptor? s = some t ↔ t.descriptor = s ∧ t ≠ .null) ∧
    (∀ spare, Signature.readAt (s.length + spare) s = .ok (Signature.ofDescriptor? s)) ∧
    Ty.readAt s.toList = .ok (Ty.ofDescriptor? s) :=
  ⟨fun _ => Signature.ofDescriptor?_iff, fun _ => Ty.ofDescriptor?_iff,
    fun _ => Signature.readAt_eq s (Nat.le_add_right ..), Ty.readAt_eq s.toList⟩

end ClassTree
