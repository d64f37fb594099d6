import ClassTree.Ty.Descriptor

/-!
# Names and descriptors read back

* A name is what its text is read as, and a text that is read as a name is its text (`Name.parse?_text`,
  `Name.text_of_parse?`). A `$` is in it iff it is the name of a nested class (`Name.dollar_mem_text_iff`).
* Types and signatures are what their descriptors are read as, except that the type of the null literal comes back as the
  root class (`Ty.ofDescriptor?_descriptor`, `Signature.ofDescriptor?_descriptor`). Parameters must not be `void`.
-/

namespace ClassTree

/-! ## Pieces of a text -/

section Pieces

variable {sep : Char}

theorem piecesFrom_eq (cs word : List Char) (words : List (List Char)) :
    piecesFrom sep cs word words = words.reverse ++ piecesFrom sep cs word [] := by
  induction cs generalizing word words with
  | nil => simp [piecesFrom]
  | cons c cs ih =>
    rw [piecesFrom, piecesFrom]
    split
    · rw [ih, ih [] [word.reverse]]
      simp
    · exact ih _ _

theorem piecesFrom_append {w : List Char} (hw : sep ∉ w) (cs word : List Char) :
    piecesFrom sep (w ++ cs) word [] = piecesFrom sep cs (w.reverse ++ word) [] := by
  induction w generalizing word with
  | nil => rfl
  | cons c w ih =>
    rw [List.mem_cons, not_or] at hw
    rw [List.cons_append, piecesFrom, if_neg (Ne.symm hw.1), ih hw.2]
    simp

/-- A text without a separator is one piece. -/
theorem pieces_of_not_mem {w : List Char} (hw : sep ∉ w) : pieces sep w = [w] := by
  have h := piecesFrom_append hw [] []
  rw [List.append_nil] at h
  rw [pieces, h]
  simp [piecesFrom]

/-- What stands before the first separator is the first piece. -/
theorem pieces_append {w : List Char} (hw : sep ∉ w) (cs : List Char) :
    pieces sep (w ++ sep :: cs) = w :: pieces sep cs := by
  rw [pieces, piecesFrom_append hw, piecesFrom, if_pos rfl, piecesFrom_eq, pieces]
  simp

theorem pieces_intercalate {ws : List (List Char)} (hne : ws ≠ []) (hws : ∀ w ∈ ws, sep ∉ w) :
    pieces sep ([sep].intercalate ws) = ws := by
  match ws with
  | [] => exact absurd rfl hne
  | [w] =>
    rw [List.intercalate_singleton]
    exact pieces_of_not_mem (hws w (by simp))
  | w :: v :: ws =>
    have hrest : ∀ u ∈ v :: ws, sep ∉ u := fun u hu => hws u (List.mem_cons_of_mem _ hu)
    rw [List.intercalate_cons_cons, List.append_assoc, List.singleton_append, pieces_append (hws w (by simp)),
      pieces_intercalate (by simp) hrest]

theorem intercalate_piecesFrom (cs word : List Char) :
    [sep].intercalate (piecesFrom sep cs word []) = word.reverse ++ cs := by
  induction cs generalizing word with
  | nil => simp [piecesFrom]
  | cons c cs ih =>
    rw [piecesFrom]
    split
    · rename_i hc
      have hrest := ih []
      obtain ⟨w, ws, heq⟩ := List.exists_cons_of_ne_nil (piecesFrom_ne_nil sep cs [] [])
      rw [heq] at hrest
      rw [piecesFrom_eq, heq, hc, List.reverse_singleton, List.singleton_append, List.intercalate_cons_cons, hrest]
      simp
    · rw [ih (c :: word)]
      simp

/-- A text is put together again from its pieces. -/
theorem intercalate_pieces (cs : List Char) : [sep].intercalate (pieces sep cs) = cs := intercalate_piecesFrom cs []

theorem intercalate_concat (ws : List (List Char)) (last : List Char) :
    [sep].intercalate (ws ++ [last]) = ws.flatMap (· ++ [sep]) ++ last := by
  induction ws with
  | nil => simp
  | cons w ws ih =>
    obtain ⟨v, vs, heq⟩ := List.exists_cons_of_ne_nil (show ws ++ [last] ≠ [] by simp)
    rw [List.cons_append, heq, List.intercalate_cons_cons, ← heq, ih]
    simp

end Pieces

/-! ## Names -/

theorem isIdentifierPart_of_mem {s : String} (h : isIdentifier s = true) {c : Char} (hc : c ∈ s.toList) :
    isIdentifierPart c = true := by
  unfold isIdentifier at h
  split at h
  · cases h
  · rename_i a cs heq
    rw [Bool.and_eq_true] at h
    rw [heq] at hc
    rcases List.mem_cons.1 hc with rfl | hc
    · have hstart := h.1
      simp only [isIdentifierStart, isIdentifierPart, Char.isAlphanum, Bool.or_eq_true] at hstart ⊢
      exact hstart.imp_left .inl
    · exact List.all_eq_true.1 h.2 c hc

/-- Characters that no identifier has are not in it. -/
theorem not_mem_of_isIdentifier {s : String} (h : isIdentifier s = true) {c : Char} (hc : isIdentifierPart c = false) :
    c ∉ s.toList := by
  intro hmem
  rw [isIdentifierPart_of_mem h hmem] at hc
  cases hc

namespace Name

theorem toList_text (n : Name) :
    n.text.toList = (n.package.map String.toList).flatMap (· ++ ['.']) ++ ['$'].intercalate (n.path.map String.toList) := by
  simp [text, className, List.flatMap_map]

theorem not_mem_className (n : Name) {c : Char} (hc : isIdentifierPart c = false) (hne : c ≠ '$') :
    c ∉ ['$'].intercalate (n.path.map String.toList) := by
  have h : ∀ ws : List (List Char), (∀ w ∈ ws, c ∉ w) → c ∉ ['$'].intercalate ws := by
    intro ws hws
    induction ws with
    | nil => simp
    | cons w ws ih =>
      match ws with
      | [] => simpa using hws w (by simp)
      | v :: ws =>
        have hrest := ih fun u hu => hws u (List.mem_cons_of_mem _ hu)
        rw [List.intercalate_cons_cons]
        simp only [List.mem_append, List.mem_singleton, not_or]
        exact ⟨⟨hws w (by simp), hne⟩, hrest⟩
  refine h _ fun w hw => ?_
  obtain ⟨s, hs, rfl⟩ := List.mem_map.1 hw
  exact not_mem_of_isIdentifier (n.path_ok s hs) hc

/-- The text of a name has no characters but those of identifiers and the two separators. -/
theorem not_mem_text (n : Name) {c : Char} (hc : isIdentifierPart c = false) (hdot : c ≠ '.') (hne : c ≠ '$') :
    c ∉ n.text.toList := by
  rw [toList_text]
  simp only [List.mem_append, List.mem_flatMap, List.mem_map, not_or, not_exists, not_and]
  refine ⟨?_, n.not_mem_className hc hne⟩
  rintro w ⟨s, hs, rfl⟩
  exact ⟨not_mem_of_isIdentifier (n.package_ok s hs) hc, fun hmem => hdot (List.mem_singleton.1 hmem)⟩

theorem pieces_text (n : Name) :
    pieces '.' n.text.toList = n.package.map String.toList ++ [['$'].intercalate (n.path.map String.toList)] := by
  have h : ∀ ws : List (List Char), (∀ w ∈ ws, '.' ∉ w) → ∀ last : List Char, '.' ∉ last →
      pieces '.' (ws.flatMap (· ++ ['.']) ++ last) = ws ++ [last] := by
    intro ws hws last hlast
    induction ws with
    | nil => exact pieces_of_not_mem hlast
    | cons w ws ih =>
      rw [List.flatMap_cons, List.append_assoc, List.append_assoc, List.singleton_append,
        pieces_append (hws w (by simp)), ih fun u hu => hws u (List.mem_cons_of_mem _ hu)]
      rfl
  rw [toList_text]
  refine h _ (fun w hw => ?_) _ (n.not_mem_className (by decide) (by decide))
  obtain ⟨s, hs, rfl⟩ := List.mem_map.1 hw
  exact not_mem_of_isIdentifier (n.package_ok s hs) (by decide)

theorem pieces_className (n : Name) :
    pieces '$' (['$'].intercalate (n.path.map String.toList)) = n.path.map String.toList := by
  refine pieces_intercalate (by simpa using n.path_ne) fun w hw => ?_
  obtain ⟨s, hs, rfl⟩ := List.mem_map.1 hw
  exact not_mem_of_isIdentifier (n.path_ok s hs) (by decide)

theorem text_ne_empty (n : Name) : n.text ≠ "" := by
  intro h
  have htext := n.toList_text
  rw [h] at htext
  have hclass : ['$'].intercalate (n.path.map String.toList) = [] := (List.append_eq_nil_iff.1 htext.symm).2
  have hpath := n.pieces_className
  rw [hclass] at hpath
  have hempty : "" ∈ n.path := by
    have : ([] : List Char) ∈ n.path.map String.toList := hpath ▸ List.mem_singleton.2 rfl
    obtain ⟨s, hs, hnil⟩ := List.mem_map.1 this
    rwa [String.toList_eq_nil_iff.1 hnil] at hs
  exact absurd (n.path_ok "" hempty) (by decide)

/-- A name is what its text is read as. -/
theorem parse?_text (n : Name) : parse? n.text = some n := by
  have hmap : ∀ l : List String, (l.map String.toList).map String.ofList = l := by
    intro l
    simp
  have hpackage : (pieces '.' n.text.toList).dropLast.map String.ofList = n.package := by
    rw [pieces_text, List.dropLast_concat, hmap]
  have hpath : (pieces '$' ((pieces '.' n.text.toList).getLast (pieces_ne_nil _ _))).map String.ofList = n.path := by
    simp only [pieces_text, List.getLast_concat, pieces_className, hmap]
  rw [parse?, parse, if_neg n.text_ne_empty]
  dsimp only
  split
  · rename_i hfind
    have hmem := List.mem_of_find?_eq_some hfind
    have hbad := List.find?_some hfind
    rw [hpackage] at hmem
    simp [n.package_ok _ hmem] at hbad
  · rename_i hfind
    have hmem := List.mem_of_find?_eq_some hfind
    have hbad := List.find?_some hfind
    rw [hpath] at hmem
    simp [n.path_ok _ hmem] at hbad
  · simp only [Except.toOption, Option.some.injEq]
    obtain ⟨package, path, _, _, _⟩ := n
    simp only [mk.injEq]
    exact ⟨hpackage, hpath⟩

/-- The name of a class in the default package, of simple names that are checked by evaluation. -/
def ofPath (path : List String) (h : (!path.isEmpty && path.all isIdentifier) = true) : Name where
  package := []
  path
  package_ok := fun _ hs => absurd hs List.not_mem_nil
  path_ne := by
    rw [Bool.and_eq_true, Bool.not_eq_true', List.isEmpty_eq_false_iff] at h
    exact h.1
  path_ok := by
    rw [Bool.and_eq_true, List.all_eq_true] at h
    exact h.2

theorem text_inj {a b : Name} : a.text = b.text ↔ a = b := by
  refine ⟨fun h => ?_, fun h => by rw [h]⟩
  have ha := a.parse?_text
  rw [h, b.parse?_text, Option.some.injEq] at ha
  exact ha.symm

/-- A text that is read as a name is its text. -/
theorem text_of_parse? {s : String} {n : Name} (h : parse? s = some n) : n.text = s := by
  rw [parse?, parse] at h
  split at h
  · cases h
  · dsimp only at h
    split at h
    · cases h
    · cases h
    · simp only [Except.toOption, Option.some.injEq] at h
      subst h
      have hdotted := List.dropLast_concat_getLast (pieces_ne_nil '.' s.toList)
      have hmap : ∀ ws : List (List Char), (ws.map String.ofList).map String.toList = ws := by
        intro ws
        simp
      rw [← String.toList_inj, toList_text, hmap, hmap, intercalate_pieces, ← intercalate_concat, hdotted,
        intercalate_pieces]

theorem isSome_enclosing (n : Name) : n.enclosing.isSome = true ↔ n.path.dropLast ≠ [] := by
  unfold enclosing
  split
  · rename_i h
    simp [h]
  · rename_i h
    simp [h]

theorem enclosing_ne_self (n : Name) : n.enclosing ≠ some n := by
  intro h
  unfold enclosing at h
  split at h
  · cases h
  · have hpath : n.path.dropLast = n.path := congrArg Name.path (Option.some.inj h)
    have hlength := congrArg List.length hpath
    have hpos := List.length_pos_iff.2 n.path_ne
    rw [List.length_dropLast] at hlength
    omega

/-- A name is that of a nested class iff a name encloses it. -/
theorem isNested_eq (n : Name) : n.isNested = n.enclosing.isSome := by
  rw [Bool.eq_iff_iff, isSome_enclosing, isNested, decide_eq_true_eq, ← List.length_pos_iff, List.length_dropLast]
  omega

/-- A `$` is in the text of a name iff it is the name of a nested class. -/
theorem dollar_mem_text_iff (n : Name) : '$' ∈ n.text.toList ↔ n.enclosing.isSome = true := by
  have hpackage : '$' ∉ (n.package.map String.toList).flatMap (· ++ ['.']) := by
    simp only [List.mem_flatMap, List.mem_map, not_exists, not_and]
    rintro w ⟨s, hs, rfl⟩ hmem
    rcases List.mem_append.1 hmem with hmem | hmem
    · exact not_mem_of_isIdentifier (n.package_ok s hs) (by decide) hmem
    · exact absurd (List.mem_singleton.1 hmem) (by decide)
  have hpath : ∀ s ∈ n.path, '$' ∉ s.toList := fun s hs => not_mem_of_isIdentifier (n.path_ok s hs) (by decide)
  rw [toList_text, List.mem_append, or_iff_right hpackage, isSome_enclosing]
  match hp : n.path with
  | [] => exact absurd hp n.path_ne
  | [s] => simp [hpath s (by simp [hp])]
  | s :: t :: path => simp [List.intercalate_cons_cons]

end Name

/-! ## Types -/

namespace Ty

/-- The type that comes back from a descriptor. -/
def erased : Ty → Ty
  | .null => .object
  | t => t

theorem toList_descriptor_ref (n : Name) : (Ty.ref n).descriptor.toList = 'L' :: (n.text.toList ++ [';']) := by
  simp [descriptor]

theorem scan_ref (n : Name) (rest : List Char) :
    scan ((Ty.ref n).descriptor.toList ++ rest) = some (.ref n, rest) := by
  have hsemi : ∀ c ∈ n.text.toList, (c != ';') = true := by
    intro c hc
    have := n.not_mem_text (c := ';') (by decide) (by decide) (by decide)
    simp only [bne_iff_ne]
    rintro rfl
    exact this hc
  rw [toList_descriptor_ref, List.cons_append, List.append_assoc, List.singleton_append, scan]
  rw [List.dropWhile_append_of_pos hsemi, List.takeWhile_append_of_pos hsemi]
  simp [Name.parse?_text]

/-- The descriptor of a type is read off the front of a text. -/
theorem scan_descriptor (t : Ty) (rest : List Char) : scan (t.descriptor.toList ++ rest) = some (t.erased, rest) := by
  cases t with
  | ref n => exact scan_ref n rest
  | null => exact scan_ref .object rest
  | _ => rfl

/-- A type is what its descriptor is read as. -/
theorem ofDescriptor?_descriptor (t : Ty) : ofDescriptor? t.descriptor = some t.erased := by
  have h := scan_descriptor t []
  rw [List.append_nil] at h
  rw [ofDescriptor?, ofChars?, h]

theorem isVoid_erased (t : Ty) : t.erased.isVoid = t.isVoid := by cases t <;> rfl

/-- A type that has values and can be declared: all but `void` and the type of the null literal. -/
def IsValue (t : Ty) : Prop := t ≠ .void ∧ t ≠ .null

instance : DecidablePred IsValue := fun t => inferInstanceAs (Decidable (t ≠ .void ∧ t ≠ .null))

theorem erased_of_ne {t : Ty} (h : t ≠ .null) : t.erased = t := by
  cases t <;> first | rfl | exact absurd rfl h

theorem ne_null_of_scan {cs rest : List Char} {t : Ty} (h : scan cs = some (t, rest)) : t ≠ .null := by
  unfold scan at h
  split at h
  · cases h
  · split at h
    · cases h
    · obtain ⟨n, -, hn⟩ := Option.map_eq_some_iff.1 h
      cases hn
      exact Ty.noConfusion
  · obtain ⟨u, hu, hn⟩ := Option.map_eq_some_iff.1 h
    cases hn
    unfold ofLetter? at hu
    split at hu <;> cases hu <;> exact Ty.noConfusion

theorem IsValue.isVoid {t : Ty} (h : t.IsValue) : t.isVoid = false := decide_eq_false h.1

end Ty

namespace Signature

/-- The signature that comes back from a descriptor. -/
def erased (s : Signature) : Signature := ⟨s.params.map Ty.erased, s.ret.erased⟩

theorem scanParams_of_scan {cs rest : List Char} {t : Ty} (h : Ty.scan cs = some (t, rest)) (ht : t.isVoid = false)
    (acc : List Ty) : scanParams cs acc = scanParams rest (t :: acc) := by
  match cs with
  | [] => cases h
  | c :: cs =>
    have hc : c ≠ ')' := by
      rintro rfl
      cases h
    rw [scanParams, if_neg hc]
    split
    · rename_i hnone
      rw [hnone] at h
      cases h
    · rename_i heq
      rw [heq] at h
      cases h
      simp [ht]

theorem scanParams_descriptor {params : List Ty} (hparams : ∀ t ∈ params, t.isVoid = false) (ret : Ty) (acc : List Ty) :
    scanParams ((params.map Ty.descriptor).flatMap String.toList ++ ')' :: ret.descriptor.toList) acc =
      some ⟨acc.reverse ++ params.map Ty.erased, ret.erased⟩ := by
  induction params generalizing acc with
  | nil =>
    have hret : Ty.ofChars? ret.descriptor.toList = some ret.erased := ret.ofDescriptor?_descriptor
    simp [scanParams, hret]
  | cons t params ih =>
    have hscan := t.scan_descriptor ((params.map Ty.descriptor).flatMap String.toList ++ ')' :: ret.descriptor.toList)
    rw [List.map_cons, List.flatMap_cons, List.append_assoc, scanParams_of_scan hscan]
    · rw [ih fun u hu => hparams u (List.mem_cons_of_mem _ hu)]
      simp
    · rw [Ty.isVoid_erased]
      exact hparams t (by simp)

theorem toList_descriptor (s : Signature) :
    s.descriptor.toList = '(' :: ((s.params.map Ty.descriptor).flatMap String.toList ++ ')' :: s.ret.descriptor.toList) := by
  simp [descriptor]

/-- A signature is what its descriptor is read as. -/
theorem ofDescriptor?_descriptor {s : Signature} (h : ∀ t ∈ s.params, t.isVoid = false) :
    ofDescriptor? s.descriptor = some s.erased := by
  rw [ofDescriptor?, toList_descriptor]
  exact scanParams_descriptor h s.ret []

theorem isValue_of_scanParams {cs : List Char} {acc : List Ty} {s : Signature} (h : scanParams cs acc = some s)
    (hacc : ∀ t ∈ acc, t.IsValue) : ∀ t ∈ s.params, t.IsValue := by
  fun_induction scanParams cs acc with
  | case1 => cases h
  | case2 =>
    obtain ⟨ret, -, rfl⟩ := Option.map_eq_some_iff.1 h
    exact fun t ht => hacc t (List.mem_reverse.1 ht)
  | case3 => cases h
  | case4 => cases h
  | case5 acc c cs hc t rest hscan hlt hvoid ih =>
    refine ih h fun u hu => ?_
    rcases List.mem_cons.1 hu with rfl | hu
    · exact ⟨by simpa [Ty.isVoid] using hvoid, Ty.ne_null_of_scan hscan⟩
    · exact hacc u hu

/-- The parameters that are read from a descriptor have values. -/
theorem isValue_of_ofDescriptor? {text : String} {s : Signature} (h : ofDescriptor? text = some s) :
    ∀ t ∈ s.params, t.IsValue := by
  unfold ofDescriptor? at h
  split at h
  · exact isValue_of_scanParams h (by simp)
  · cases h

/-- A signature whose types can be declared comes back from its descriptor. -/
theorem ofDescriptor?_of_isValue {s : Signature} (hparams : ∀ t ∈ s.params, t.IsValue) (hret : s.ret ≠ .null) :
    ofDescriptor? s.descriptor = some s := by
  have hsame : s.params.map Ty.erased = s.params :=
    (List.map_congr_left fun t ht => Ty.erased_of_ne (hparams t ht).2).trans (List.map_id _)
  rw [ofDescriptor?_descriptor fun t ht => (hparams t ht).isVoid, erased, hsame,
    Ty.erased_of_ne hret]

end Signature

end ClassTree
