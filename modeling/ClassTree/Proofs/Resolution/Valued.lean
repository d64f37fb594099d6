import ClassTree.Proofs.Resolution.Entered
import ClassTree.Proofs.Typing.Valued

/-!
# Resolved classes hold values

A field is entered with the type that it is declared with, whatever was found about that type. So the fields of a resolved
registry hold values if those of the classes that were resolved do (`Registry.Valued.resolve`). A variable of type `void` is
reported as well, so the bodies of a class that no finding names declare none (`Registry.Entered.vars_method`,
`Registry.Entered.vars_constructor`), and neither do its parameters.
-/

namespace ClassTree

/-! ## Entries -/

theorem Gathered.forall_add {α : Type} {P : α → Prop} {g : Gathered α} {found : List Diagnostic} {x : Except Diagnostic α}
    (hg : ∀ e ∈ g.entries.toList, P e) (hx : ∀ e, x = .ok e → P e) : ∀ e ∈ (g.add found x).entries.toList, P e := by
  cases x with
  | error d => exact hg
  | ok e =>
    rw [entries_add]
    exact List.forall_mem_append.2 ⟨hg, fun e' he' => List.mem_singleton.1 he' ▸ hx e rfl⟩

namespace ClassDef

variable {d : ClassDef} {r : Registry}

/-- The fields of a class are entered as they are declared, whatever is found about them. -/
theorem forall_mem_gatherFields {P : FieldEntry → Prop} (h : ∀ f ∈ d.fields, P (d.fieldEntry f))
    (houter : ∀ e ∈ d.outerEntry?, P e) : ∀ e ∈ (d.gatherFields r).entries.toList, P e := by
  rw [gatherFields_eq.2]
  refine List.forall_mem_append.2 ⟨?_, houter⟩
  refine List.foldlRecOn (b := (∅, {})) (motive := fun g => ∀ e ∈ g.2.entries.toList, P e) d.fields (d.gatherField r)
    (fun _ he => absurd he List.not_mem_nil) fun g hg f hf => ?_
  rw [gatherField]
  dsimp only
  split
  · refine Gathered.forall_add hg fun e he => ?_
    cases he
  · refine Gathered.forall_add hg fun e he => ?_
    cases he
    exact h f hf

theorem isVoid_of_mem_gatherFields (h : ∀ f ∈ d.fields, f.ty.isVoid = false) :
    ∀ e ∈ (d.gatherFields r).entries.toList, e.ty.isVoid = false := by
  refine forall_mem_gatherFields h fun e he => ?_
  obtain ⟨outer, -, rfl⟩ := List.mem_map.1 he
  rfl

/-- Methods are entered as they are declared. -/
theorem forall_mem_gatherMethods {P : MethodEntry → Prop} (h : ∀ m ∈ d.methods, P (d.methodEntry m)) :
    ∀ e ∈ (d.gatherMethods r).entries.toList, P e := by
  refine List.foldlRecOn (b := {}) (motive := fun g => ∀ e ∈ g.entries.toList, P e) d.methods (d.gatherMethod r)
    (fun _ he => absurd he List.not_mem_nil) fun g hg m hm => Gathered.forall_add hg fun e he => ?_
  split at he
  · cases he
  · cases he
    exact h m hm

/-- Constructors are entered as returning nothing. -/
theorem ret_of_mem_gatherConstructors : ∀ k ∈ (d.gatherConstructors r).entries.toList, k.ret = .void := by
  have hall : ∀ k ∈ (d.constructors.foldl (d.gatherConstructor r) {}).entries.toList, k.ret = .void := by
    refine List.foldlRecOn (b := {}) (motive := fun g => ∀ k ∈ g.entries.toList, k.ret = .void) d.constructors
      (d.gatherConstructor r) (fun _ hk => absurd hk List.not_mem_nil) fun g hg k _ => Gathered.forall_add hg fun e he => ?_
    split at he
    · cases he
    · cases he
      rfl
  unfold gatherConstructors
  dsimp only
  split
  · intro k hk
    rw [List.mem_singleton.1 hk]
    rfl
  · exact hall

end ClassDef

namespace Registry

variable {g : Registry}

theorem valued_host : host.Valued := ⟨by decide, by decide⟩

theorem Valued.update (h : g.Valued) {n : Name} {f : ClassEntry → ClassEntry}
    (hfields : ∀ e, ∀ x ∈ (f e).fields, x.ty.isVoid = false)
    (hconstructors : ∀ e, ∀ k ∈ (f e).constructors, k.ret = .void) : (g.update n f).Valued := by
  refine ⟨fun e he => ?_, fun e he => ?_⟩
  · obtain ⟨e, hmem, rfl⟩ := List.mem_map.1 he
    split
    · exact hfields e
    · exact h.fields e hmem
  · obtain ⟨e, hmem, rfl⟩ := List.mem_map.1 he
    split
    · exact hconstructors e
    · exact h.constructors e hmem

/-- A class is declared without members. -/
theorem Valued.declareAll (h : g.Valued) (ds : List ClassDef) : (g.declareAll ds).1.Valued := by
  induction ds generalizing g with
  | nil => exact h
  | cons d ds ih =>
    rw [declareAll_cons]
    refine ih ?_
    rw [declare_eq]
    split
    · exact h
    · have hheader : ∀ e ∈ [d.header], e.fields = [] ∧ e.constructors = [] := by
        intro e he
        rw [List.mem_singleton.1 he]
        exact ⟨rfl, rfl⟩
      refine ⟨List.forall_mem_append.2 ⟨h.fields, fun e he => ?_⟩,
        List.forall_mem_append.2 ⟨h.constructors, fun e he => ?_⟩⟩
      · rw [(hheader e he).1]
        exact fun x hx => nomatch hx
      · rw [(hheader e he).2]
        exact fun k hk => nomatch hk

/-- All fields hold values after resolution if the declared ones do. -/
theorem Valued.resolve (h : g.Valued) {ds : List ClassDef} (hds : ∀ d ∈ ds, ∀ f ∈ d.fields, f.ty.isVoid = false) :
    (g.resolve ds).1.Valued := by
  rw [Registry.resolve]
  refine List.foldlRecOn (b := (g.declareAll ds).1) (motive := Registry.Valued) ds _ (h.declareAll ds) fun g' hg d hd => ?_
  exact hg.update (fun _ => ClassDef.isVoid_of_mem_gatherFields (hds d hd)) fun _ => ClassDef.ret_of_mem_gatherConstructors

end Registry

/-! ## Variables -/

namespace Site

variable {s : Site}

mutual

/-- A statement in which nothing is found declares no variable of type `void`. -/
theorem vars_of_checkStmt : ∀ (allowSuper : Bool) (x : Stmt) {found : Array Diagnostic},
    (s.checkStmt allowSuper x found).toList = [] → ∀ t ∈ x.varTypes, t.isVoid = false
  | _, .block stmts, found, h => by
    rw [checkStmt] at h
    rw [Stmt.varTypes]
    exact vars_of_checkStmts false stmts h
  | _, .decl _ ty none, found, h => by
    rw [checkStmt, Array.toList_appendList, List.append_eq_nil_iff] at h
    rw [Stmt.varTypes]
    exact fun t ht => List.mem_singleton.1 ht ▸ (isValue_of_checkValueType h.2).isVoid
  | _, .decl _ ty (some e), found, h => by
    rw [checkStmt, Array.toList_appendList, Array.toList_appendList, List.append_eq_nil_iff, List.append_eq_nil_iff] at h
    rw [Stmt.varTypes]
    exact fun t ht => List.mem_singleton.1 ht ▸ (isValue_of_checkValueType h.1.2).isVoid
  | _, .expr _, _, _ | _, .ret _, _, _ | _, .superCall _, _, _ => by
    rw [Stmt.varTypes]
    exact fun t ht => nomatch ht
  | _, .cond test t none, found, h => by
    rw [checkStmt] at h
    rw [Stmt.varTypes]
    exact vars_of_checkStmt false t h
  | _, .cond test t (some e), found, h => by
    rw [checkStmt] at h
    rw [Stmt.varTypes]
    exact List.forall_mem_append.2 ⟨vars_of_checkStmt false t (clean_checkStmt false e h).1, vars_of_checkStmt false e h⟩
  | _, .loop test body, found, h => by
    rw [checkStmt] at h
    rw [Stmt.varTypes]
    exact vars_of_checkStmt false body h

theorem vars_of_checkStmts : ∀ (allowSuper : Bool) (xs : List Stmt) {found : Array Diagnostic},
    (s.checkStmts allowSuper xs found).toList = [] → ∀ t ∈ varTypesAll xs, t.isVoid = false
  | _, [], _, _ => fun t ht => nomatch ht
  | allowSuper, x :: rest, found, h => by
    rw [checkStmts] at h
    rw [varTypesAll]
    exact List.forall_mem_append.2
      ⟨vars_of_checkStmt allowSuper x (clean_checkStmts false rest h).1, vars_of_checkStmts false rest h⟩

end

end Site

namespace Registry.Entered

variable {r declared : Registry} {d : ClassDef}

/-- The parameters of a method, and the variables that it declares, hold values. -/
theorem vars_method (h : r.Entered declared d) {m : MethodDef} (hm : m ∈ d.methods) :
    (∀ p ∈ m.params, p.ty.isVoid = false) ∧
      ∀ body, m.body = some body → ∀ t ∈ varTypesAll body, t.isVoid = false := by
  have hclean := h.clean
  simp only [ClassDef.checkDeclarations, List.append_eq_nil_iff] at hclean
  have hmethod := (ClassDef.gatherMethods_clean hclean.1.2).2.1 m hm
  refine ⟨fun p hp => (Site.isValue_of_checkValueType (hmethod.params p hp)).isVoid, fun body hbody => ?_⟩
  have hchecked := hmethod.body
  simp only [ClassDef.checkMethodBody, hbody, List.append_eq_nil_iff] at hchecked
  exact Site.vars_of_checkStmts false body hchecked.2

/-- So do those of a constructor. -/
theorem vars_constructor (h : r.Entered declared d) {k : ConstructorDef} (hk : k ∈ d.allConstructors) :
    (∀ p ∈ k.params, p.ty.isVoid = false) ∧ ∀ t ∈ varTypesAll (splitSuperCall k.body).2, t.isVoid = false := by
  have hclean := h.clean
  simp only [ClassDef.checkDeclarations, List.append_eq_nil_iff] at hclean
  unfold ClassDef.allConstructors at hk
  split at hk
  · rw [List.mem_singleton.1 hk]
    exact ⟨List.forall_mem_nil _, List.forall_mem_nil _⟩
  · have hconstructor := (ClassDef.gatherConstructors_clean hclean.2).2.1 k hk
    refine ⟨fun p hp => (Site.isValue_of_checkValueType (hconstructor.params p hp)).isVoid, ?_⟩
    have hbody := Site.vars_of_checkStmts true k.body hconstructor.body
    unfold splitSuperCall
    split
    · rename_i heq
      rw [heq, varTypesAll, List.forall_mem_append] at hbody
      exact hbody.2
    · exact hbody

end Registry.Entered

end ClassTree
