import ClassTree.Proofs.Compilation
import ClassTree.Proofs.Descriptor

/-!
# What resolution establishes

All findings about the declarations of a class are errors that name it (`ClassDef.about_checkDeclarations`), so a class that
passed the resolution has none (`Compilation.Passed.accepted`). What that says of its members is gathered in
`ClassDef.FieldsClean`, `ClassDef.MethodsClean` and `ClassDef.ConstructorsClean`.
-/

namespace ClassTree

/-- All findings of a list are errors that name a class, and none is that it inherits from itself. -/
def Ordinary (name : Name) (ds : List Diagnostic) : Prop :=
  ∀ x ∈ ds, x.isError = true ∧ x.cls = name.text ∧ x.code ≠ .circularInheritance

namespace Ordinary

variable {name : Name} {ds es : List Diagnostic} {x : Diagnostic}

theorem about (h : Ordinary name ds) : About name ds := fun x hx => ⟨(h x hx).1, (h x hx).2.1⟩

theorem code_ne (h : Ordinary name ds) (hx : x ∈ ds) : x.code ≠ .circularInheritance := (h x hx).2.2

theorem nil : Ordinary name [] := List.forall_mem_nil _

theorem append (h : Ordinary name ds) (h' : Ordinary name es) : Ordinary name (ds ++ es) := List.forall_mem_append.2 ⟨h, h'⟩

theorem singleton (herror : x.isError = true) (hcls : x.cls = name.text) (hcode : x.code ≠ .circularInheritance) :
    Ordinary name [x] :=
  List.forall_mem_singleton.2 ⟨herror, hcls, hcode⟩

theorem flatMap {α : Type} {f : α → List Diagnostic} (items : List α) (h : ∀ a ∈ items, Ordinary name (f a)) :
    Ordinary name (items.flatMap f) := List.forall_mem_flatMap.2 h

theorem reportIf {c : Bool} (herror : x.isError = true) (hcls : x.cls = name.text) (hcode : x.code ≠ .circularInheritance) :
    Ordinary name (ClassTree.reportIf c x) := by
  unfold ClassTree.reportIf
  split
  · exact singleton herror hcls hcode
  · exact nil

end Ordinary

/-! ## Type references -/

namespace Site

variable (s : Site)

theorem ordinary_checkType (t : Ty) : Ordinary s.cls (s.checkType t) := by
  unfold checkType
  split
  · split
    · exact .nil
    · exact .singleton rfl rfl nofun
  · exact .singleton rfl rfl nofun
  · exact .nil

theorem ordinary_checkValueType (t : Ty) : Ordinary s.cls (s.checkValueType t) := by
  unfold checkValueType
  split
  · exact .singleton rfl rfl nofun
  · exact s.ordinary_checkType t

mutual

theorem ordinary_checkExpr : ∀ e, Ordinary s.cls (s.checkExpr e)
  | .lit _ | .var _ | .this | .outer => by simp only [checkExpr]; exact .nil
  | .field target _ => by rw [checkExpr]; exact ordinary_checkExpr target
  | .assign target value => by rw [checkExpr]; exact (ordinary_checkExpr target).append (ordinary_checkExpr value)
  | .call receiver _ args => by rw [checkExpr]; exact (ordinary_checkExpr receiver).append (ordinary_checkExprs args)
  | .staticCall cls _ args => by rw [checkExpr]; exact (s.ordinary_checkType _).append (ordinary_checkExprs args)
  | .new cls args => by rw [checkExpr]; exact (s.ordinary_checkType _).append (ordinary_checkExprs args)
  | .binary _ left right => by rw [checkExpr]; exact (ordinary_checkExpr left).append (ordinary_checkExpr right)
  | .unary _ operand => by rw [checkExpr]; exact ordinary_checkExpr operand

theorem ordinary_checkExprs : ∀ es, Ordinary s.cls (s.checkExprs es)
  | [] => by rw [checkExprs]; exact .nil
  | e :: rest => by rw [checkExprs]; exact (ordinary_checkExpr e).append (ordinary_checkExprs rest)

end

mutual

theorem ordinary_checkStmt : ∀ (allowSuper : Bool) (x : Stmt) {found : Array Diagnostic}, Ordinary s.cls found.toList →
    Ordinary s.cls (s.checkStmt allowSuper x found).toList
  | _, .block stmts, found, h => by rw [checkStmt]; exact ordinary_checkStmts false stmts h
  | _, .decl _ ty none, found, h => by
    rw [checkStmt, Array.toList_appendList]
    exact h.append (s.ordinary_checkValueType ty)
  | _, .decl _ ty (some e), found, h => by
    rw [checkStmt, Array.toList_appendList, Array.toList_appendList]
    exact (h.append (s.ordinary_checkValueType ty)).append (s.ordinary_checkExpr e)
  | _, .expr e, found, h => by
    rw [checkStmt, Array.toList_appendList]
    exact h.append (s.ordinary_checkExpr e)
  | _, .ret none, found, h => by rw [checkStmt]; exact h
  | _, .ret (some e), found, h => by
    rw [checkStmt, Array.toList_appendList]
    exact h.append (s.ordinary_checkExpr e)
  | _, .cond test t none, found, h => by
    rw [checkStmt]
    exact ordinary_checkStmt false t (by rw [Array.toList_appendList]; exact h.append (s.ordinary_checkExpr test))
  | _, .cond test t (some e), found, h => by
    rw [checkStmt]
    refine ordinary_checkStmt false e (ordinary_checkStmt false t ?_)
    rw [Array.toList_appendList]
    exact h.append (s.ordinary_checkExpr test)
  | _, .loop test body, found, h => by
    rw [checkStmt]
    exact ordinary_checkStmt false body (by rw [Array.toList_appendList]; exact h.append (s.ordinary_checkExpr test))
  | allowSuper, .superCall args, found, h => by
    rw [checkStmt, Array.toList_appendList]
    refine Ordinary.append ?_ (s.ordinary_checkExprs args)
    split
    · exact h
    · rw [Array.toList_push]
      exact h.append (.singleton rfl rfl nofun)

theorem ordinary_checkStmts : ∀ (allowSuper : Bool) (xs : List Stmt) {found : Array Diagnostic}, Ordinary s.cls found.toList →
    Ordinary s.cls (s.checkStmts allowSuper xs found).toList
  | _, [], found, h => by rw [checkStmts]; exact h
  | allowSuper, x :: rest, found, h => by
    rw [checkStmts]
    exact ordinary_checkStmts false rest (ordinary_checkStmt allowSuper x h)

end

theorem ordinary_checkBody (isConstructor : Bool) (body : List Stmt) : Ordinary s.cls (s.checkBody isConstructor body) :=
  s.ordinary_checkStmts isConstructor body .nil

/-- A type that may be declared for a field, a parameter or a variable has values. -/
theorem isValue_of_checkValueType {s : Site} {t : Ty} (h : s.checkValueType t = []) : t.IsValue := by
  cases t <;> first | exact ⟨Ty.noConfusion, Ty.noConfusion⟩ | cases h

end Site

/-! ## Members -/

namespace Gathered

variable {α : Type} {g : Gathered α} {found : List Diagnostic} {x : Except Diagnostic α}

theorem ordinary_add {name : Name} (hg : Ordinary name g.found.toList) (hfound : Ordinary name found)
    (hx : ∀ d, x = .error d → Ordinary name [d]) : Ordinary name (g.add found x).found.toList := by
  cases x with
  | ok entry =>
    rw [add, Array.toList_appendList]
    exact hg.append hfound
  | error d =>
    rw [add, Array.toList_push, Array.toList_appendList]
    exact (hg.append hfound).append (hx d rfl)

/-- Nothing was found after a declaration iff there was nothing before, nothing is wrong with it, and it is new. -/
theorem found_add_eq_nil : (g.add found x).found.toList = [] ↔
    g.found.toList = [] ∧ found = [] ∧ ∃ e, x = .ok e := by
  cases x with
  | ok entry => simp [add]
  | error d => simp [add]

theorem entries_add {e : α} : (g.add found (.ok e)).entries.toList = g.entries.toList ++ [e] := by simp [add]

/-- Whether an entry is added does not depend on what was found. -/
theorem entries_add_congr {g' : Gathered α} {x' : Except Diagnostic α} (h : g.entries = g'.entries)
    (hx : x.toOption = x'.toOption) (found found' : List Diagnostic) : (g.add found x).entries = (g'.add found' x').entries := by
  cases x <;> cases x' <;> cases hx <;> simp [add, h]

theorem toOption_unless {p : Prop} [Decidable p] {e e' : Diagnostic} {a : α} :
    (if p then Except.error e else .ok a).toOption = (if p then Except.error e' else .ok a).toOption := by
  split <;> rfl

theorem found_of_foldl {β : Type} {step : Gathered α → β → Gathered α}
    (hstep : ∀ g b, (step g b).found.toList = [] → g.found.toList = []) (bs : List β)
    (h : (bs.foldl step g).found.toList = []) : g.found.toList = [] := by
  induction bs generalizing g with
  | nil => exact h
  | cons b bs ih => exact hstep g b (ih h)

/-- The rule for gathering declarations one after the other: nothing is found iff nothing is wrong with each of them and
each is new among those before it, and then all have entries. -/
theorem foldl_clean {β : Type} {step : Gathered α → β → Gathered α} {entry : β → α} {P : β → Prop} {R : α → α → Prop}
    (hstep : ∀ g b, (step g b).found.toList = [] → g.found.toList = [] ∧ P b ∧
      (step g b).entries.toList = g.entries.toList ++ [entry b] ∧ ∀ e ∈ g.entries.toList, R e (entry b))
    (bs : List β) (hg : g.entries.toList.Pairwise R) (h : (bs.foldl step g).found.toList = []) :
    g.found.toList = [] ∧ (bs.foldl step g).entries.toList = g.entries.toList ++ bs.map entry ∧ (∀ b ∈ bs, P b) ∧
      (g.entries.toList ++ bs.map entry).Pairwise R := by
  induction bs generalizing g with
  | nil => exact ⟨h, by simp, by simp, by simpa using hg⟩
  | cons b bs ih =>
    have hkeep : (step g b).found.toList = [] := found_of_foldl (fun g b h => (hstep g b h).1) bs h
    obtain ⟨hfound, hb, hentries, hnew⟩ := hstep g b hkeep
    have hnext : (step g b).entries.toList.Pairwise R := by
      rw [hentries, List.pairwise_append]
      exact ⟨hg, by simp, fun e he f hf => by rw [List.mem_singleton.1 hf]; exact hnew e he⟩
    obtain ⟨-, hall, hP, hR⟩ := ih hnext h
    rw [hentries, List.append_assoc] at hall hR
    refine ⟨hfound, hall, fun c hc => ?_, hR⟩
    rcases List.mem_cons.1 hc with rfl | hc
    · exact hb
    · exact hP c hc

end Gathered

theorem reportIf_eq_nil {c : Bool} {x : Diagnostic} : reportIf c x = [] ↔ c = false := by
  cases c <;> simp [reportIf]

namespace ClassDef

variable {d : ClassDef} {r : Registry}

/-- Nothing is wrong with a method by itself. -/
structure MethodClean (r : Registry) (d : ClassDef) (m : MethodDef) : Prop where
  params : ∀ p ∈ m.params, (d.site r (some m.name)).checkValueType p.ty = []
  ret : (d.site r (some m.name)).checkType m.ret = []
  body : d.checkMethodBody (d.site r (some m.name)) m = []
  visibility : (d.methodEntry m).modifiers.hasConflictingVisibility = false

theorem ordinary_checkMethodBody (s : Site) (hs : s.cls = d.name) (m : MethodDef) :
    Ordinary d.name (d.checkMethodBody s m) := by
  unfold checkMethodBody
  have hreport : ∀ c message, Ordinary d.name (reportIf c (s.report .invalidModifiers message)) :=
    fun _ _ => .reportIf rfl (by rw [← hs]; rfl) nofun
  split
  · exact (hreport _ _).append (hs ▸ s.ordinary_checkBody false _)
  · exact (hreport _ _).append (hreport _ _)

theorem ordinary_gatherMethods : Ordinary d.name (d.gatherMethods r).found.toList := by
  refine List.foldlRecOn (b := {}) (motive := fun g => Ordinary d.name g.found.toList) d.methods (d.gatherMethod r) .nil
    fun g hg m _ => Gathered.ordinary_add hg ?_ fun x hx => ?_
  · refine Ordinary.append (.append (.append (.flatMap _ fun p _ => ?_) ?_) ?_) (.reportIf rfl rfl nofun)
    · exact Site.ordinary_checkValueType _ _
    · exact Site.ordinary_checkType _ _
    · exact ordinary_checkMethodBody _ rfl m
  · split at hx
    · cases hx
      exact .singleton rfl rfl nofun
    · cases hx

/-- If nothing is wrong with the methods of a class, each has an entry, and no two have the same name and parameters. -/
theorem gatherMethods_clean (h : (d.gatherMethods r).found.toList = []) :
    (d.gatherMethods r).entries.toList = d.methods.map d.methodEntry ∧ (∀ m ∈ d.methods, MethodClean r d m) ∧
      (d.methods.map d.methodEntry).Pairwise fun a b => ¬ (a.name = b.name ∧ a.params = b.params) := by
  have hstep : ∀ (g : Gathered MethodEntry) (m : MethodDef), (d.gatherMethod r g m).found.toList = [] →
      g.found.toList = [] ∧ MethodClean r d m ∧
        (d.gatherMethod r g m).entries.toList = g.entries.toList ++ [d.methodEntry m] ∧
        ∀ e ∈ g.entries.toList, ¬ (e.name = (d.methodEntry m).name ∧ e.params = (d.methodEntry m).params) := by
    intro g m hm
    obtain ⟨hg, hfound, e, he⟩ := Gathered.found_add_eq_nil.1 hm
    simp only [List.append_eq_nil_iff, List.flatMap_eq_nil_iff, reportIf_eq_nil] at hfound
    obtain ⟨⟨⟨hparams, hret⟩, hbody⟩, hvisibility⟩ := hfound
    refine ⟨hg, ⟨hparams, hret, hbody, hvisibility⟩, ?_⟩
    split at he
    · cases he
    · rename_i hnew
      cases he
      refine ⟨?_, fun e he heq => hnew ?_⟩
      · rw [gatherMethod, if_neg hnew, Gathered.entries_add]
      · rw [Array.any_eq_true']
        exact ⟨e, by simpa using he, by simpa using heq⟩
  exact (Gathered.foldl_clean (g := {}) (R := fun a b => ¬ (a.name = b.name ∧ a.params = b.params)) hstep d.methods
    (by simp) h).2

/-- Nothing is wrong with a constructor by itself. -/
structure ConstructorClean (r : Registry) (d : ClassDef) (k : ConstructorDef) : Prop where
  params : ∀ p ∈ k.params, (d.site r (some constructorName)).checkValueType p.ty = []
  modifiers : k.modifiers.isStatic = false ∧ k.modifiers.isAbstract = false ∧ k.modifiers.isFinal = false ∧
    k.modifiers.hasConflictingVisibility = false
  body : (d.site r (some constructorName)).checkBody true k.body = []

/-- The entry of a constructor. -/
def constructorEntry (d : ClassDef) (k : ConstructorDef) : MethodEntry :=
  .constructor d.name k.modifiers (k.params.map (·.ty))

/-- The entries of constructors do not depend on the names of parameters or on bodies. -/
theorem entries_gatherConstructors_congr {d' : ClassDef} (hname : d'.name = d.name)
    (h : List.Forall₂ (fun k k' => d'.constructorEntry k' = d.constructorEntry k) d.constructors d'.constructors) :
    (d'.gatherConstructors r).entries = (d.gatherConstructors r).entries := by
  have hfold : ∀ {ks ks'}, List.Forall₂ (fun k k' => d'.constructorEntry k' = d.constructorEntry k) ks ks' →
      ∀ {g g' : Gathered MethodEntry}, g'.entries = g.entries →
      (ks'.foldl (d'.gatherConstructor r) g').entries = (ks.foldl (d.gatherConstructor r) g).entries := by
    intro ks ks' hks
    induction hks with
    | nil => exact id
    | @cons k k' _ _ hk _ ih =>
      intro g g' hg
      refine ih (Gathered.entries_add_congr hg ?_ _ _)
      change (if g'.entries.any (·.params = (d'.constructorEntry k').params) then _ else Except.ok (d'.constructorEntry k')).toOption =
        (if g.entries.any (·.params = (d.constructorEntry k).params) then _ else Except.ok (d.constructorEntry k)).toOption
      rw [hk, hg]
      exact Gathered.toOption_unless
  unfold gatherConstructors
  dsimp only
  rw [hfold h rfl, hname]
  split
  · rfl
  · exact hfold h rfl

theorem ordinary_gatherConstructors : Ordinary d.name (d.gatherConstructors r).found.toList := by
  have hall : Ordinary d.name (d.constructors.foldl (d.gatherConstructor r) {}).found.toList := by
    refine List.foldlRecOn (b := {}) (motive := fun g => Ordinary d.name g.found.toList) d.constructors
      (d.gatherConstructor r) .nil fun g hg k _ => Gathered.ordinary_add hg ?_ fun x hx => ?_
    · refine Ordinary.append (.append (.flatMap _ fun p _ => ?_) (.reportIf rfl rfl nofun)) ?_
      · exact Site.ordinary_checkValueType _ _
      · exact Site.ordinary_checkBody _ _ _
    · split at hx
      · cases hx
        exact .singleton rfl rfl nofun
      · cases hx
  unfold gatherConstructors
  dsimp only
  split
  · exact hall
  · exact hall

/-- If nothing is wrong with the constructors of a class, each has an entry, and no two have the same parameters; a class
that declares none has the one that it is given. -/
theorem gatherConstructors_clean (h : (d.gatherConstructors r).found.toList = []) :
    (d.gatherConstructors r).entries.toList = d.allConstructors.map d.constructorEntry ∧
      (∀ k ∈ d.constructors, ConstructorClean r d k) ∧
      (d.allConstructors.map d.constructorEntry).Pairwise fun a b => a.params ≠ b.params := by
  have hstep : ∀ (g : Gathered MethodEntry) (k : ConstructorDef), (d.gatherConstructor r g k).found.toList = [] →
      g.found.toList = [] ∧ ConstructorClean r d k ∧
        (d.gatherConstructor r g k).entries.toList = g.entries.toList ++ [d.constructorEntry k] ∧
        ∀ e ∈ g.entries.toList, e.params ≠ (d.constructorEntry k).params := by
    intro g k hk
    obtain ⟨hg, hfound, e, he⟩ := Gathered.found_add_eq_nil.1 hk
    simp only [List.append_eq_nil_iff, List.flatMap_eq_nil_iff, reportIf_eq_nil, Bool.or_eq_false_iff] at hfound
    obtain ⟨⟨hparams, ⟨⟨hstatic, habstract⟩, hfinal⟩, hvisibility⟩, hbody⟩ := hfound
    refine ⟨hg, ⟨hparams, ⟨hstatic, habstract, hfinal, hvisibility⟩, hbody⟩, ?_⟩
    split at he
    · cases he
    · rename_i hnew
      cases he
      refine ⟨?_, fun e he heq => hnew ?_⟩
      · rw [gatherConstructor, if_neg hnew, Gathered.entries_add]
        rfl
      · rw [Array.any_eq_true']
        exact ⟨e, by simpa using he, by simpa [constructorEntry] using heq⟩
  have hfound : (d.constructors.foldl (d.gatherConstructor r) {}).found.toList = [] := by
    unfold gatherConstructors at h
    dsimp only at h
    split at h
    · exact h
    · exact h
  obtain ⟨-, hentries, hclean, hpairwise⟩ := Gathered.foldl_clean (g := {}) (R := fun a b => a.params ≠ b.params) hstep
    d.constructors (by simp) hfound
  have hgiven : (d.gatherConstructors r).entries.toList = d.allConstructors.map d.constructorEntry := by
    unfold gatherConstructors allConstructors
    dsimp only
    cases hks : d.constructors with
    | nil => rfl
    | cons k ks =>
      rw [hks] at hentries
      have hne : (List.foldl (d.gatherConstructor r) {} (k :: ks)).entries.isEmpty = false := by
        rw [← Array.isEmpty_toList, hentries]
        rfl
      rw [hne]
      exact hentries
  refine ⟨hgiven, hclean, ?_⟩
  unfold allConstructors
  split
  · simp
  · exact hpairwise

/-- Nothing is wrong with a field by itself. -/
structure FieldClean (r : Registry) (d : ClassDef) (f : FieldDef) : Prop where
  ty : (d.site r (some f.name)).checkValueType f.ty = []
  modifiers : f.modifiers.isStatic = false ∧ f.modifiers.isAbstract = false ∧
    f.modifiers.hasConflictingVisibility = false
  init : ∀ e, f.init = some e → (d.site r (some f.name)).checkExpr e = []

/-- The entry of a field. -/
def fieldEntry (d : ClassDef) (f : FieldDef) : FieldEntry := ⟨d.name, f.name, f.ty, f.modifiers⟩

/-- The entry of the field for the outer instance, if there is one. -/
def outerEntry? (d : ClassDef) : List FieldEntry :=
  d.outerClass?.toList.map fun outer => ⟨d.name, outerField, .ref outer, outerFieldModifiers⟩

theorem gatherFields_eq : (d.gatherFields r).found = (d.fields.foldl (d.gatherField r) (∅, {})).2.found ∧
    (d.gatherFields r).entries.toList =
      (d.fields.foldl (d.gatherField r) (∅, {})).2.entries.toList ++ d.outerEntry? := by
  unfold gatherFields outerEntry? outerClass?
  dsimp only
  cases henc : d.enclosing with
  | none => simp
  | some outer => cases hinner : d.isInner <;> simp

theorem ordinary_gatherFields : Ordinary d.name (d.gatherFields r).found.toList := by
  rw [gatherFields_eq.1]
  refine List.foldlRecOn (b := (∅, {})) (motive := fun g => Ordinary d.name g.2.found.toList) d.fields (d.gatherField r) .nil
    fun g hg f _ => ?_
  have hown : Ordinary d.name ((d.site r (some f.name)).checkValueType f.ty ++
      reportIf f.modifiers.isStatic ((d.site r (some f.name)).report .invalidModifiers "static fields are not supported") ++
      reportIf (f.modifiers.isAbstract || f.modifiers.hasConflictingVisibility)
        ((d.site r (some f.name)).report .invalidModifiers "invalid field modifiers")) :=
    .append (.append (Site.ordinary_checkValueType _ _) (.reportIf rfl rfl nofun)) (.reportIf rfl rfl nofun)
  rw [gatherField]
  dsimp only
  split
  · refine Gathered.ordinary_add hg hown fun x hx => ?_
    cases hx
    exact .singleton rfl rfl nofun
  · refine Gathered.ordinary_add hg (hown.append ?_) fun x hx => nomatch hx
    split
    · exact Site.ordinary_checkExpr _ _
    · exact .nil

/-- If nothing is wrong with the fields of a class, each has an entry, no two have the same name, and none has the name of
the field for the outer instance if there is one. -/
theorem gatherFields_clean (h : (d.gatherFields r).found.toList = []) :
    (d.gatherFields r).entries.toList = d.fields.map d.fieldEntry ++ d.outerEntry? ∧
      (∀ f ∈ d.fields, FieldClean r d f) ∧ (d.fields.map FieldDef.name).Nodup ∧
      (d.isInner = true → outerField ∉ d.fields.map FieldDef.name) := by
  -- What is known of the names so far is what `seen` holds.
  have hfold : ∀ (fs : List FieldDef) (seen : Std.HashSet String) (g : Gathered FieldEntry),
      (fs.foldl (d.gatherField r) (seen, g)).2.found.toList = [] →
      g.found.toList = [] ∧
        (fs.foldl (d.gatherField r) (seen, g)).2.entries.toList = g.entries.toList ++ fs.map d.fieldEntry ∧
        (∀ f ∈ fs, FieldClean r d f ∧ f.name ∉ seen ∧ (d.isInner = true → f.name ≠ outerField)) ∧
        (fs.map FieldDef.name).Nodup := by
    intro fs
    induction fs with
    | nil => exact fun _ g hg => ⟨hg, by simp, by simp, by simp⟩
    | cons f fs ih =>
      intro seen g hfound
      rw [List.foldl_cons] at hfound ⊢
      rw [gatherField] at hfound ⊢
      dsimp only at hfound ⊢
      by_cases hrepeats : d.repeatsField seen f = true
      · rw [if_pos hrepeats] at hfound
        obtain ⟨hg, -⟩ := ih _ _ hfound
        obtain ⟨-, -, e, he⟩ := Gathered.found_add_eq_nil.1 hg
        cases he
      · rw [if_neg hrepeats] at hfound ⊢
        obtain ⟨hg, hentries, hclean, hnodup⟩ := ih _ _ hfound
        obtain ⟨hg, hown, -⟩ := Gathered.found_add_eq_nil.1 hg
        simp only [List.append_eq_nil_iff, reportIf_eq_nil, Bool.or_eq_false_iff] at hown
        obtain ⟨⟨⟨hty, hstatic⟩, habstract, hvisibility⟩, hinit⟩ := hown
        simp only [repeatsField, Bool.or_eq_true, not_or, Bool.and_eq_true, not_and, decide_eq_true_eq,
          Std.HashSet.contains_iff_mem] at hrepeats
        refine ⟨hg, ?_, ?_, ?_⟩
        · rw [hentries, Gathered.entries_add, List.append_assoc]
          rfl
        · intro f' hf'
          rcases List.mem_cons.1 hf' with rfl | hf'
          · refine ⟨⟨hty, ⟨hstatic, habstract, hvisibility⟩, fun e he => ?_⟩, hrepeats⟩
            rw [he] at hinit
            exact hinit
          · obtain ⟨hf, hnew, houter⟩ := hclean f' hf'
            exact ⟨hf, fun hmem => hnew (Std.HashSet.mem_insert.2 (.inr hmem)), houter⟩
        · rw [List.map_cons, List.nodup_cons]
          refine ⟨fun hmem => ?_, hnodup⟩
          obtain ⟨f', hf', heq⟩ := List.mem_map.1 hmem
          exact (hclean f' hf').2.1 (Std.HashSet.mem_insert.2 (.inl (by simpa using heq.symm)))
  rw [gatherFields_eq.1] at h
  obtain ⟨-, hentries, hclean, hnodup⟩ := hfold d.fields ∅ {} h
  refine ⟨?_, fun f hf => (hclean f hf).1, hnodup, fun hinner hmem => ?_⟩
  · rw [gatherFields_eq.2, hentries]
    rfl
  · obtain ⟨f, hf, heq⟩ := List.mem_map.1 hmem
    exact (hclean f hf).2.2 hinner heq

/-! ## Classes -/

theorem ordinary_checkModifiers : Ordinary d.name d.checkModifiers :=
  .append (.append (.reportIf rfl rfl nofun) (.reportIf rfl rfl nofun)) (.reportIf rfl rfl nofun)

theorem ordinary_checkEnclosing : Ordinary d.name (d.checkEnclosing r) := by
  unfold checkEnclosing
  split
  · exact .nil
  · split
    · exact .nil
    · exact .singleton rfl rfl nofun

theorem about_checkSuperclass : About d.name (d.checkSuperclass r) := by
  unfold checkSuperclass
  intro x hx
  obtain ⟨message, -, rfl⟩ := List.mem_map.1 hx
  exact ⟨rfl, rfl⟩

/-- A superclass with which nothing is wrong is declared, and is no inner class. -/
theorem exists_superclass (h : d.checkSuperclass r = []) : ∃ e, r.get? d.superclass = some e ∧ e.isInner = false := by
  have hproblem : d.superclassProblem? r = none := by simpa [checkSuperclass] using h
  unfold superclassProblem? at hproblem
  split at hproblem
  · cases hproblem
  · rename_i e he
    refine ⟨e, he, ?_⟩
    cases hinner : e.isInner with
    | false => rfl
    | true =>
      rw [if_pos hinner] at hproblem
      repeat' split at hproblem
      all_goals cases hproblem

theorem about_checkDeclarations : About d.name (d.checkDeclarations r) :=
  .append (.append (.append (.append ordinary_checkEnclosing.about about_checkSuperclass) ordinary_gatherFields.about)
    ordinary_gatherMethods.about) ordinary_gatherConstructors.about

theorem ordinary_checkOverride (ancestors : List ClassEntry) (m : MethodEntry) :
    Ordinary d.name (d.checkOverride ancestors m) := by
  unfold checkOverride
  split
  · exact .nil
  · refine .append ?_ ?_
    · split
      · exact .singleton rfl rfl nofun
      · exact .nil
    · split
      · exact .singleton rfl rfl nofun
      · exact .nil

theorem ordinary_checkImplemented (ancestors : List ClassEntry) : Ordinary d.name (d.checkImplemented r ancestors) := by
  intro x hx
  obtain ⟨m, -, rfl⟩ := List.mem_map.1 hx
  exact ⟨rfl, rfl, nofun⟩

/-- What is found about the inherited members of a class, unless it is found to inherit from itself. -/
theorem ordinary_checkInherited (h : ¬ (d.superclass ≠ d.name && r.inheritance.isCyclic d.name) = true) :
    Ordinary d.name (d.checkInherited r) := by
  rw [checkInherited, if_neg h]
  split
  · exact .nil
  · refine .append (.flatMap _ fun m _ => ordinary_checkOverride _ m) ?_
    split
    · exact .nil
    · exact ordinary_checkImplemented _

theorem about_checkInherited : About d.name (d.checkInherited r) := by
  by_cases h : (d.superclass ≠ d.name && r.inheritance.isCyclic d.name) = true
  · rw [checkInherited, if_pos h]
    exact .singleton rfl rfl
  · exact (ordinary_checkInherited h).about

/-- The entry of a class with its members. -/
def entry (declared : Registry) (d : ClassDef) : ClassEntry :=
  { d.header with
    fields := (d.gatherFields declared).entries.toList
    methods := (d.gatherMethods declared).entries.toList
    constructors := (d.gatherConstructors declared).entries.toList }

end ClassDef

/-! ## The registry -/

namespace Registry

theorem contains_eq_false {r : Registry} {name : Name} : r.contains name = false ↔ ∀ e ∈ r.classes, e.name ≠ name := by
  simp [contains, get?]

theorem contains_of_mem {r : Registry} {e : ClassEntry} (he : e ∈ r.classes) : r.contains e.name = true := by
  rw [contains, get?, List.find?_isSome]
  exact ⟨e, he, decide_eq_true rfl⟩

theorem declareAll_cons (r : Registry) (d : ClassDef) (ds : List ClassDef) :
    r.declareAll (d :: ds) =
      (((d.declare r).1.declareAll ds).1, (d.declare r).2 ++ ((d.declare r).1.declareAll ds).2) := by
  have h : ∀ (ds : List ClassDef) (r : Registry) (found : List Diagnostic),
      ds.foldl (fun entered d => ((d.declare entered.1).1, entered.2 ++ (d.declare entered.1).2)) (r, found) =
        ((r.declareAll ds).1, found ++ (r.declareAll ds).2) := by
    intro ds
    induction ds with
    | nil => simp [declareAll]
    | cons d ds ih =>
      intro r found
      rw [declareAll, List.foldl_cons, List.foldl_cons]
      dsimp only
      rw [ih, ih]
      simp
  exact h ds _ _

/-- A class with a new name is declared, and one with a name that is taken is reported. -/
theorem declare_eq (r : Registry) (d : ClassDef) :
    d.declare r = if r.contains d.name then
      (r, d.checkModifiers ++ [.ofClass .duplicateMember d.name.text s!"class '{d.name.text}' is already declared"])
      else (⟨r.classes ++ [d.header]⟩, d.checkModifiers) := by
  rw [ClassDef.declare, register, show d.header.name = d.name from rfl]
  cases r.contains d.name <;> rfl

theorem contains_append {r : Registry} {e : ClassEntry} {n : Name} :
    contains ⟨r.classes ++ [e]⟩ n = false ↔ r.contains n = false ∧ e.name ≠ n := by
  simp only [contains_eq_false, List.mem_append, List.mem_singleton]
  exact ⟨fun h => ⟨fun e he => h e (.inl he), h e (.inr rfl)⟩,
    fun h x hx => hx.elim (h.1 x) fun heq => heq ▸ h.2⟩

/-- Classes with new names are all declared. -/
theorem declareAll_eq {ds : List ClassDef} {r : Registry} (hnodup : (ds.map ClassDef.name).Nodup)
    (hnew : ∀ d ∈ ds, r.contains d.name = false) :
    r.declareAll ds = (⟨r.classes ++ ds.map ClassDef.header⟩, ds.flatMap ClassDef.checkModifiers) := by
  induction ds generalizing r with
  | nil => simp [declareAll]
  | cons d ds ih =>
    rw [List.map_cons, List.nodup_cons] at hnodup
    have hd : d.declare r = (⟨r.classes ++ [d.header]⟩, d.checkModifiers) := by
      rw [declare_eq, hnew d (by simp)]
      rfl
    rw [declareAll_cons, hd, ih hnodup.2]
    · simp
    · intro d' hd'
      refine contains_append.2 ⟨hnew d' (List.mem_cons_of_mem _ hd'), ?_⟩
      rintro (heq : d.name = d'.name)
      exact hnodup.1 (heq ▸ List.mem_map_of_mem hd')

/-- If nothing is found when classes are declared, their names are new. -/
theorem names_of_declareAll {ds : List ClassDef} {r : Registry} (h : (r.declareAll ds).2 = []) :
    (ds.map ClassDef.name).Nodup ∧ ∀ d ∈ ds, r.contains d.name = false := by
  induction ds generalizing r with
  | nil => simp
  | cons d ds ih =>
    rw [declareAll_cons, List.append_eq_nil_iff, declare_eq] at h
    cases hd : r.contains d.name with
    | true => simp [hd] at h
    | false =>
      rw [hd] at h
      obtain ⟨hnodup, hnew⟩ := ih h.2
      refine ⟨?_, ?_⟩
      · rw [List.map_cons, List.nodup_cons]
        refine ⟨fun hmem => ?_, hnodup⟩
        obtain ⟨d', hd', heq⟩ := List.mem_map.1 hmem
        exact (contains_append.1 (hnew d' hd')).2 heq.symm
      · intro d' hd'
        rcases List.mem_cons.1 hd' with rfl | hd'
        · exact hd
        · exact (contains_append.1 (hnew d' hd')).1

/-- Entering the members of classes one after the other replaces their headers. -/
theorem foldl_enterMembers (declared : Registry) {ds : List ClassDef} (hnodup : (ds.map ClassDef.name).Nodup) :
    ∀ (before : List ClassEntry), (∀ e ∈ before, ∀ d ∈ ds, e.name ≠ d.name) →
      ds.foldl (fun r d => d.enterMembers declared r) ⟨before ++ ds.map ClassDef.header⟩ =
        ⟨before ++ ds.map (ClassDef.entry declared)⟩ := by
  induction ds with
  | nil => simp
  | cons d ds ih =>
    intro before hbefore
    rw [List.map_cons, List.nodup_cons] at hnodup
    have hother : ∀ es : List ClassEntry, (∀ e ∈ es, e.name ≠ d.name) → ∀ f : ClassEntry → ClassEntry,
        es.map (fun c => if c.name = d.name then f c else c) = es := by
      intro es hes f
      refine (List.map_congr_left fun e he => ?_).trans (List.map_id es)
      rw [if_neg (hes e he)]
      rfl
    have hstep : d.enterMembers declared ⟨before ++ (d :: ds).map ClassDef.header⟩ =
        ⟨(before ++ [d.entry declared]) ++ ds.map ClassDef.header⟩ := by
      simp only [ClassDef.enterMembers, update, List.map_append, List.map_cons]
      rw [hother before fun e he => hbefore e he d (by simp), hother (ds.map ClassDef.header)]
      · simp [ClassDef.entry, ClassDef.header]
      · intro e he
        obtain ⟨d', hd', rfl⟩ := List.mem_map.1 he
        rintro (heq : d'.name = d.name)
        exact hnodup.1 (heq ▸ List.mem_map_of_mem hd')
    rw [List.foldl_cons, hstep, ih hnodup.2]
    · simp
    · intro e he d' hd'
      rcases List.mem_append.1 he with he | he
      · exact hbefore e he d' (List.mem_cons_of_mem _ hd')
      · rw [List.mem_singleton.1 he]
        rintro (heq : d.name = d'.name)
        exact hnodup.1 (heq ▸ List.mem_map_of_mem hd')

/-- The host library and classes that are declared, without their members. -/
def headers (ds : List ClassDef) : Registry := ⟨Host.classes ++ ds.map ClassDef.header⟩

/-- The host library and classes with their members. -/
def entries (ds : List ClassDef) : Registry := ⟨Host.classes ++ ds.map (ClassDef.entry (headers ds))⟩

/-- Classes keep their names when their members are entered. -/
theorem contains_entries {ds : List ClassDef} {n : Name} : (entries ds).contains n = (headers ds).contains n := by
  simp only [contains, get?, entries, headers, List.find?_append, List.find?_map, Option.isSome_or, Option.isSome_map]
  rfl

theorem host_name_ne {d : ClassDef} (hd : HostClass.ofName? d.name = none) {e : ClassEntry} (he : e ∈ Host.classes) :
    e.name ≠ d.name := by
  intro heq
  rw [← heq] at hd
  simp only [Host.classes, List.mem_cons, List.not_mem_nil, or_false] at he
  rcases he with rfl | rfl | rfl <;> exact absurd hd (by decide)

/-- A name that the host library does not contain is none of its names. -/
theorem ofName?_of_contains {n : Name} (h : host.contains n = false) : HostClass.ofName? n = none := by
  have hnames : ∀ c ∈ HostClass.all, ∃ e ∈ Host.classes, e.name = c.name := by decide
  refine List.find?_eq_none.2 fun c hc heq => ?_
  obtain ⟨e, he, hname⟩ := hnames c hc
  exact contains_eq_false.1 h e he (hname.trans (by simpa using heq))

/-- Resolving classes with new names beside the host library. -/
theorem host_resolve {ds : List ClassDef} (hnodup : (ds.map ClassDef.name).Nodup)
    (hhost : ∀ d ∈ ds, HostClass.ofName? d.name = none) :
    host.declareAll ds = (headers ds, ds.flatMap ClassDef.checkModifiers) ∧
      host.resolve ds = (entries ds, ds.flatMap ClassDef.checkModifiers ++
        ds.flatMap (ClassDef.checkDeclarations (headers ds)) ++ ds.flatMap (ClassDef.checkInherited (entries ds))) := by
  have hnew : ∀ e ∈ Host.classes, ∀ d ∈ ds, e.name ≠ d.name := fun e he d hd => host_name_ne (hhost d hd) he
  have hall : host.declareAll ds = (headers ds, ds.flatMap ClassDef.checkModifiers) := by
    refine declareAll_eq hnodup fun d hd => ?_
    rw [contains_eq_false]
    exact fun e he => hnew e he d hd
  have hfold : ds.foldl (fun r d => d.enterMembers (headers ds) r) (headers ds) = entries ds :=
    foldl_enterMembers _ hnodup _ hnew
  refine ⟨hall, ?_⟩
  rw [resolve, hall]
  simp only
  rw [hfold]

end Registry

/-! ## Findings of the resolution -/

/-- Every finding of a list is an error about one of the classes. -/
def AboutSome (ds : List ClassDef) (found : List Diagnostic) : Prop :=
  ∀ x ∈ found, x.isError = true ∧ ∃ d ∈ ds, x.cls = d.name.text

namespace AboutSome

variable {ds : List ClassDef} {found more : List Diagnostic}

theorem append (h : AboutSome ds found) (h' : AboutSome ds more) : AboutSome ds (found ++ more) := by
  intro x hx
  rcases List.mem_append.1 hx with hx | hx
  · exact h x hx
  · exact h' x hx

theorem of_about {d : ClassDef} (hd : d ∈ ds) (h : About d.name found) : AboutSome ds found := fun x hx =>
  ⟨(h x hx).1, d, hd, (h x hx).2⟩

theorem flatMap {f : ClassDef → List Diagnostic} (h : ∀ d, About d.name (f d)) : AboutSome ds (ds.flatMap f) := by
  intro x hx
  obtain ⟨d, hd, hx⟩ := List.mem_flatMap.1 hx
  exact of_about hd (h d) x hx

end AboutSome

theorem ClassDef.about_declare (r : Registry) (d : ClassDef) : About d.name (d.declare r).2 := by
  unfold declare
  split
  · exact ordinary_checkModifiers.about
  · exact ordinary_checkModifiers.about.append (.singleton rfl rfl)

theorem Registry.aboutSome_declareAll {ds rest : List ClassDef} (r : Registry) (hrest : ∀ d ∈ rest, d ∈ ds) :
    AboutSome ds (r.declareAll rest).2 := by
  induction rest generalizing r with
  | nil => exact fun x hx => absurd hx List.not_mem_nil
  | cons d rest ih =>
    rw [declareAll_cons]
    exact .append (.of_about (hrest d List.mem_cons_self) (d.about_declare r))
      (ih _ fun d hd => hrest d (List.mem_cons_of_mem _ hd))

/-- All that is found when classes are entered are errors about these classes. -/
theorem Registry.aboutSome_resolve (r : Registry) (ds : List ClassDef) : AboutSome ds (r.resolve ds).2 :=
  ((aboutSome_declareAll r fun _ hd => hd).append (.flatMap fun _ => ClassDef.about_checkDeclarations)).append
    (.flatMap fun _ => ClassDef.about_checkInherited)

/-! ## Compilations -/

namespace Compilation

/-- The classes of a compilation. -/
def defs (c : Compilation) : List ClassDef := c.modules.map (·.cls)

/-- No class that was added has the name of another or of a host class. -/
theorem Built.names {c : Compilation} (h : Built c) :
    (c.defs.map ClassDef.name).Nodup ∧ ∀ d ∈ c.defs, HostClass.ofName? d.name = none := by
  induction h with
  | start config moduleName => simp [defs]
  | @add c c' d hc hadd ih =>
    obtain ⟨classes, hvetted, rfl⟩ := add_eq_ok hadd
    obtain ⟨hnodup, hall⟩ := checkNew_eq_ok.1 (vetted_eq_ok.1 hvetted).2.2
    have hdefs : (classes.foldl enter c).defs = c.defs ++ classes := by
      obtain ⟨index, heq⟩ := foldl_enter classes c
      simp [heq, defs, Function.comp_def]
    rw [hdefs, List.map_append, List.nodup_append]
    refine ⟨⟨ih.1, hnodup, ?_⟩, fun d hd => ?_⟩
    · rintro a ha b hb rfl
      obtain ⟨d, hd, rfl⟩ := List.mem_map.1 ha
      obtain ⟨d', hd', heq⟩ := List.mem_map.1 hb
      obtain ⟨m, hm, rfl⟩ := List.mem_map.1 hd
      exact (hall d' hd').1 (hc.fresh.indexed.mem_index_iff.2 (List.mem_map.2 ⟨m, hm, by rw [heq]; rfl⟩))
    · rcases List.mem_append.1 hd with hd | hd
      · exact ih.2 d hd
      · exact (hall d hd).2

/-- The registry in which all classes are entered without their members. -/
def declared (c : Compilation) : Registry := (c.registry.declareAll c.defs).1

theorem Built.resolve_eq {c : Compilation} (h : Built c) :
    c.declared = ⟨Host.classes ++ c.defs.map ClassDef.header⟩ ∧
      c.resolved = ⟨Host.classes ++ c.defs.map (ClassDef.entry c.declared)⟩ ∧
      c.resolutionFindings = c.defs.flatMap ClassDef.checkModifiers ++
        c.defs.flatMap (ClassDef.checkDeclarations c.declared) ++ c.defs.flatMap (ClassDef.checkInherited c.resolved) := by
  obtain ⟨hnodup, hhost⟩ := h.names
  obtain ⟨hall, hresolve⟩ := Registry.host_resolve hnodup hhost
  rw [← h.fresh.registry] at hall hresolve
  have hdeclared : c.declared = Registry.headers c.defs := congrArg Prod.fst hall
  have hresolved : c.resolved = Registry.entries c.defs := congrArg Prod.fst hresolve
  refine ⟨hdeclared, ?_, ?_⟩
  · rw [hresolved, hdeclared]
    rfl
  · rw [hdeclared, hresolved]
    exact congrArg Prod.snd hresolve

/-- Nothing was found about a class when it was entered. -/
structure Accepted (c : Compilation) (d : ClassDef) : Prop where
  modifiers : d.checkModifiers = []
  declarations : d.checkDeclarations c.declared = []
  inherited : d.checkInherited c.resolved = []

/-- A class that passed every phase was accepted by the resolution. -/
theorem Passed.accepted {c : Compilation} (hc : Built c) {d : ClassDef} {bytes : Bytes} (h : c.Passed d bytes)
    (hd : d ∈ c.defs) : c.Accepted d := by
  have hpart : ∀ ds, About d.name ds → (∀ x ∈ ds, x ∈ c.resolutionFindings) → ds = [] := by
    intro ds habout hsub
    refine habout.eq_nil ?_
    have hok := h.resolved
    simp only [Diagnostic.hasErrors, List.any_eq_false, List.mem_filter] at hok ⊢
    exact fun x hx => hok x ⟨hsub x hx.1, hx.2⟩
  rw [hc.resolve_eq.2.2] at hpart
  refine ⟨hpart _ ClassDef.ordinary_checkModifiers.about fun x hx => ?_, hpart _ ClassDef.about_checkDeclarations fun x hx => ?_,
    hpart _ ClassDef.about_checkInherited fun x hx => ?_⟩
  · exact List.mem_append_left _ (List.mem_append_left _ (List.mem_flatMap.2 ⟨d, hd, hx⟩))
  · exact List.mem_append_left _ (List.mem_append_right _ (List.mem_flatMap.2 ⟨d, hd, hx⟩))
  · exact List.mem_append_right _ (List.mem_flatMap.2 ⟨d, hd, hx⟩)

/-- The declarations of an accepted class by their kinds. -/
theorem Accepted.members {c : Compilation} {d : ClassDef} (h : c.Accepted d) :
    d.checkEnclosing c.declared = [] ∧ d.checkSuperclass c.declared = [] ∧
      (d.gatherFields c.declared).found.toList = [] ∧ (d.gatherMethods c.declared).found.toList = [] ∧
      (d.gatherConstructors c.declared).found.toList = [] := by
  have hall := h.declarations
  simp only [ClassDef.checkDeclarations, List.append_eq_nil_iff] at hall
  obtain ⟨⟨⟨⟨henclosing, hsuper⟩, hfields⟩, hmethods⟩, hconstructors⟩ := hall
  exact ⟨henclosing, hsuper, hfields, hmethods, hconstructors⟩

end Compilation

end ClassTree
