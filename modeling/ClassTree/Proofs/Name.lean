import Mathlib
import ClassTree.Proofs.Descriptor

/-!
# The grammar of names

The texts of names are a language over the alphabet of all characters, put together from the languages of its parts: an
identifier is a letter or `_` followed by letters, digits and `_`; a package is identifiers each followed by a dot; a nesting
path is one or more identifiers joined by `$`.

* A text is read as a name iff it is in the language (`Name.exists_parse_iff`), and then it is the text of that name and of
  no other (`Name.parse_eq_ok_iff`).
* Nesting and enclosing undo each other: `m` is the name of the class `x` in the class `n` iff `n` encloses `m` and `x` is
  the simple name of `m` (`Name.nested_eq_ok_iff`).
-/

namespace ClassTree

open scoped Computability

/-! ## The language -/

/-- The words of one character with a property. -/
def oneOf (p : Char → Prop) : Language Char := {w | ∃ c, p c ∧ w = [c]}

/-- `[A-Za-z_]` -/
def letters : Language Char := oneOf fun c => 'A' ≤ c ∧ c ≤ 'Z' ∨ 'a' ≤ c ∧ c ≤ 'z' ∨ c = '_'

/-- `[0-9]` -/
def digits : Language Char := oneOf fun c => '0' ≤ c ∧ c ≤ '9'

/-- `[A-Za-z_][A-Za-z0-9_]*` -/
def identifiers : Language Char := letters * (letters + digits)∗

/-- Zero or more identifiers, each followed by a dot. -/
def packages : Language Char := (identifiers * {['.']})∗

/-- One or more identifiers joined by `$`. -/
def nestingPaths : Language Char := identifiers * ({['$']} * identifiers)∗

/-- A package and a nesting path. -/
def qualifiedNames : Language Char := packages * nestingPaths

/-! ## Identifiers -/

theorem isIdentifierStart_iff (c : Char) :
    isIdentifierStart c = true ↔ 'A' ≤ c ∧ c ≤ 'Z' ∨ 'a' ≤ c ∧ c ≤ 'z' ∨ c = '_' := by
  simp only [isIdentifierStart, Char.isAlpha, Char.isUpper, Char.isLower, Bool.or_eq_true, Bool.and_eq_true,
    decide_eq_true_eq, beq_iff_eq, or_assoc]
  rfl

theorem isIdentifierPart_iff (c : Char) : isIdentifierPart c = true ↔ isIdentifierStart c = true ∨ '0' ≤ c ∧ c ≤ '9' := by
  simp only [isIdentifierPart, isIdentifierStart, Char.isAlphanum, Char.isDigit, Bool.or_eq_true, Bool.and_eq_true,
    decide_eq_true_eq, or_right_comm]
  rfl

theorem mem_letters_iff {w : List Char} : w ∈ letters ↔ ∃ c, isIdentifierStart c = true ∧ w = [c] :=
  exists_congr fun c => and_congr_left' (isIdentifierStart_iff c).symm

theorem mem_letters_add_digits_iff {w : List Char} :
    w ∈ letters + digits ↔ ∃ c, isIdentifierPart c = true ∧ w = [c] := by
  rw [Language.mem_add, mem_letters_iff]
  simp only [isIdentifierPart_iff, or_and_right, exists_or]
  rfl

/-- Letters, digits and `_` in any number are a word of single ones. -/
theorem mem_kstar_letters_add_digits_iff {w : List Char} :
    w ∈ (letters + digits)∗ ↔ w.all isIdentifierPart = true := by
  rw [Language.mem_kstar, List.all_eq_true]
  constructor
  · rintro ⟨ws, rfl, hws⟩ c hc
    obtain ⟨v, hv, hcv⟩ := List.mem_flatten.1 hc
    obtain ⟨a, ha, rfl⟩ := mem_letters_add_digits_iff.1 (hws v hv)
    rwa [List.mem_singleton.1 hcv]
  · intro h
    refine ⟨w.map fun c => [c], by rw [← List.flatMap_def, List.flatMap_singleton'], fun v hv => ?_⟩
    obtain ⟨c, hc, rfl⟩ := List.mem_map.1 hv
    exact mem_letters_add_digits_iff.2 ⟨c, h c hc, rfl⟩

theorem isIdentifier_iff (s : String) : isIdentifier s = true ↔ s.toList ∈ identifiers := by
  rw [identifiers, Language.mem_mul]
  unfold isIdentifier
  constructor
  · intro h
    split at h
    · cases h
    · rename_i c cs heq
      rw [Bool.and_eq_true] at h
      exact ⟨[c], mem_letters_iff.2 ⟨c, h.1, rfl⟩, cs, mem_kstar_letters_add_digits_iff.2 h.2, heq.symm⟩
  · rintro ⟨v, hv, w, hw, heq⟩
    obtain ⟨c, hc, rfl⟩ := mem_letters_iff.1 hv
    rw [← heq]
    exact Bool.and_eq_true_iff.2 ⟨hc, mem_kstar_letters_add_digits_iff.1 hw⟩

/-- Words of a language of identifiers are the characters of identifiers. -/
theorem exists_identifiers {ws : List (List Char)} (h : ∀ w ∈ ws, w ∈ identifiers) :
    ∃ ss : List String, (∀ s ∈ ss, isIdentifier s = true) ∧ ws = ss.map String.toList := by
  refine ⟨ws.map String.ofList, fun s hs => ?_, by simp⟩
  obtain ⟨w, hw, rfl⟩ := List.mem_map.1 hs
  rw [isIdentifier_iff, String.toList_ofList]
  exact h w hw

/-! ## Packages and nesting paths -/

/-- Repeating a language with something before or after each word. -/
theorem mem_kstar_iff_exists_flatMap {l m : Language Char} {f : List Char → List Char}
    (hm : ∀ w, w ∈ m ↔ ∃ v ∈ l, f v = w) {w : List Char} :
    w ∈ m∗ ↔ ∃ ws : List (List Char), (∀ v ∈ ws, v ∈ l) ∧ w = ws.flatMap f := by
  rw [Language.mem_kstar]
  constructor
  · rintro ⟨vs, rfl, hvs⟩
    choose! g hg hfg using fun v hv => (hm v).1 (hvs v hv)
    refine ⟨vs.map g, fun v hv => ?_, ?_⟩
    · obtain ⟨u, hu, rfl⟩ := List.mem_map.1 hv
      exact hg u hu
    · rw [List.flatMap_map, List.flatMap_def, List.map_congr_left hfg, List.map_id']
  · rintro ⟨ws, hws, rfl⟩
    refine ⟨ws.map f, List.flatMap_def, fun v hv => ?_⟩
    obtain ⟨u, hu, rfl⟩ := List.mem_map.1 hv
    exact (hm _).2 ⟨u, hws u hu, rfl⟩

theorem mem_packages_iff {w : List Char} :
    w ∈ packages ↔ ∃ ws : List (List Char), (∀ v ∈ ws, v ∈ identifiers) ∧ w = ws.flatMap (· ++ ['.']) := by
  refine mem_kstar_iff_exists_flatMap fun w => ?_
  rw [Language.mem_mul]
  exact exists_congr fun v => and_congr_right' exists_eq_left

theorem mem_nestingPaths_iff {w : List Char} :
    w ∈ nestingPaths ↔ ∃ ws, ws ≠ [] ∧ (∀ v ∈ ws, v ∈ identifiers) ∧ w = ['$'].intercalate ws := by
  have htail : ∀ w, w ∈ ({['$']} * identifiers : Language Char) ↔ ∃ v ∈ identifiers, '$' :: v = w := by
    intro w
    rw [Language.mem_mul]
    exact exists_eq_left
  have hcons : ∀ v ws, ['$'].intercalate (v :: ws) = v ++ ws.flatMap ('$' :: ·) := by
    intro v ws
    induction ws generalizing v with
    | nil => simp
    | cons u ws ih => simp [List.intercalate_cons_cons, ih]
  rw [nestingPaths, Language.mem_mul]
  constructor
  · rintro ⟨v, hv, u, hu, rfl⟩
    obtain ⟨ws, hws, rfl⟩ := (mem_kstar_iff_exists_flatMap htail).1 hu
    exact ⟨v :: ws, by simp, List.forall_mem_cons.2 ⟨hv, hws⟩, (hcons v ws).symm⟩
  · rintro ⟨ws, hne, hws, rfl⟩
    obtain ⟨v, ws, rfl⟩ := List.exists_cons_of_ne_nil hne
    rw [List.forall_mem_cons] at hws
    exact ⟨v, hws.1, _, (mem_kstar_iff_exists_flatMap htail).2 ⟨ws, hws.2, rfl⟩, (hcons v ws).symm⟩

/-! ## Reading names -/

namespace Name

/-- The language holds the texts of names and nothing else. -/
theorem mem_qualifiedNames_iff (s : String) : s.toList ∈ qualifiedNames ↔ ∃ n : Name, n.text = s := by
  rw [qualifiedNames, Language.mem_mul]
  constructor
  · rintro ⟨v, hv, w, hw, heq⟩
    obtain ⟨vs, hvs, rfl⟩ := mem_packages_iff.1 hv
    obtain ⟨ws, hne, hws, rfl⟩ := mem_nestingPaths_iff.1 hw
    obtain ⟨package, hpackage, rfl⟩ := exists_identifiers hvs
    obtain ⟨path, hpath, rfl⟩ := exists_identifiers hws
    refine ⟨⟨package, path, hpackage, by simpa using hne, hpath⟩, ?_⟩
    rw [← String.toList_inj, toList_text, heq]
  · rintro ⟨n, rfl⟩
    have hwords : ∀ ss : List String, (∀ s ∈ ss, isIdentifier s = true) → ∀ w ∈ ss.map String.toList, w ∈ identifiers := by
      intro ss hss w hw
      obtain ⟨s, hs, rfl⟩ := List.mem_map.1 hw
      exact (isIdentifier_iff s).1 (hss s hs)
    exact ⟨_, mem_packages_iff.2 ⟨_, hwords _ n.package_ok, rfl⟩, _,
      mem_nestingPaths_iff.2 ⟨_, by simpa using n.path_ne, hwords _ n.path_ok, rfl⟩, n.toList_text.symm⟩

/-- A text is read as the name that it is the text of. -/
theorem parse_eq_ok_iff {s : String} {n : Name} : parse s = .ok n ↔ n.text = s := by
  rw [← show parse? s = some n ↔ parse s = .ok n by rw [parse?]; cases parse s <;> simp [Except.toOption]]
  exact ⟨text_of_parse?, fun h => h ▸ n.parse?_text⟩

theorem exists_parse_iff (s : String) : (∃ n, parse s = .ok n) ↔ s.toList ∈ qualifiedNames := by
  simp only [parse_eq_ok_iff, mem_qualifiedNames_iff]

/-! ## Nesting and enclosing -/

theorem exists_nested_iff (n : Name) (x : String) : (∃ m, n.nested x = .ok m) ↔ x.toList ∈ identifiers := by
  rw [← isIdentifier_iff, nested]
  split <;> simp_all

/-- The class of a nested name is the one that encloses it. -/
theorem nested_eq_ok_iff {n m : Name} {x : String} : n.nested x = .ok m ↔ m.enclosing = some n ∧ m.simpleName = x := by
  obtain ⟨package, path, hpackage, hne, hpath⟩ := n
  obtain ⟨package', path', hpackage', hne', hpath'⟩ := m
  unfold nested enclosing simpleName
  constructor
  · intro h
    split at h
    · cases h
      simp [hne]
    · cases h
  · rintro ⟨h, rfl⟩
    split at h
    · cases h
    · simp only [Option.some.injEq, mk.injEq] at h
      obtain ⟨rfl, rfl⟩ := h
      rw [dif_pos (hpath' _ (List.getLast_mem hne'))]
      simp [List.dropLast_concat_getLast]

/-- A nested name is written behind the name that encloses it. -/
theorem text_of_nested {n m : Name} {x : String} (h : n.nested x = .ok m) : m.text = n.text ++ "$" ++ x := by
  -- A path is its simple name behind all others, each of these followed by a separator.
  have hpath : ∀ ws : List (List Char), ws ≠ [] →
      ['$'].intercalate (ws ++ [x.toList]) = ['$'].intercalate ws ++ '$' :: x.toList := by
    intro ws hne
    rw [intercalate_concat, ← List.dropLast_concat_getLast hne, intercalate_concat]
    simp
  unfold nested at h
  split at h
  · cases h
    rw [← String.toList_inj, toList_text, String.toList_append, String.toList_append, toList_text, List.map_append,
      List.map_singleton, hpath _ (by simpa using n.path_ne)]
    simp
  · cases h

/-- Reading accepts the grammar exactly and gives the text back; nesting accepts identifiers exactly, and enclosing undoes
it. -/
theorem reads_and_nests :
    (∀ s : String, (∃ n, parse s = .ok n) ↔ s.toList ∈ qualifiedNames) ∧
    (∀ s n, parse s = .ok n → n.text = s) ∧
    (∀ n : Name, parse n.text = .ok n) ∧
    (∀ (n : Name) (x : String), (∃ m, n.nested x = .ok m) ↔ x.toList ∈ identifiers) ∧
    (∀ (n m : Name) (x : String), n.nested x = .ok m →
      m.text = n.text ++ "$" ++ x ∧ m.enclosing = some n ∧ m.simpleName = x) ∧
    (∀ n o : Name, n.enclosing = some o → o.nested n.simpleName = .ok n) := by
  refine ⟨exists_parse_iff, fun _ _ h => parse_eq_ok_iff.1 h, fun _ => parse_eq_ok_iff.2 rfl, exists_nested_iff, ?_, ?_⟩
  · intro n m x h
    exact ⟨text_of_nested h, nested_eq_ok_iff.1 h⟩
  · intro n o h
    exact nested_eq_ok_iff.2 ⟨h, rfl⟩

end Name

end ClassTree
