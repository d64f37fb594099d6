import ClassTree.Proofs.Resolution.Dispatch

/-!
# The order in which classes are resolved

All classes are declared before any is checked, and all are entered with their members before any is compared with those
that it inherits from. So what is found about a class depends on the others only through the look-ups in two registries
(`ClassDef.checkDeclarations_congr`, `ClassDef.checkInherited_congr`), which give the same answers for registries with the
same classes in any order, as long as names are distinct (`Registry.get?_perm`, `Registry.isCyclic_perm`). The findings that
name a class are those about it (`Registry.findings_eq`), and neither they nor its entry change with the order of the classes
(`Registry.resolve_perm`).
-/

namespace ClassTree

/-! ## Look-ups -/

namespace Registry

variable {r r' : Registry}

theorem get?_perm (hperm : r.classes.Perm r'.classes) (hnodup : (r.classes.map (·.name)).Nodup) (n : Name) :
    r.get? n = r'.get? n := by
  have hnodup' : (r'.classes.map (·.name)).Nodup := (hperm.map _).nodup_iff.1 hnodup
  cases hn : r.get? n with
  | some e =>
    obtain ⟨he, rfl⟩ := get?_eq_some hn
    exact (get?_of_mem hnodup' (hperm.mem_iff.1 he)).symm
  | none =>
    cases hn' : r'.get? n with
    | none => rfl
    | some e =>
      obtain ⟨he, rfl⟩ := get?_eq_some hn'
      rw [get?_of_mem hnodup (hperm.mem_iff.2 he)] at hn
      cases hn

theorem contains_congr (hget : ∀ n, r.get? n = r'.get? n) (n : Name) : r.contains n = r'.contains n := by
  rw [contains, contains, hget]

theorem chainFrom_congr (hget : ∀ n, r.get? n = r'.get? n) (fuel : Nat) (seen : List Name) (n : Name) :
    r.chainFrom fuel seen n = r'.chainFrom fuel seen n := by
  induction fuel generalizing seen n with
  | zero => rfl
  | succ fuel ih => simp only [chainFrom, hget, ih]

theorem chain_perm (hperm : r.classes.Perm r'.classes) (hnodup : (r.classes.map (·.name)).Nodup) (n : Name) :
    r.chain n = r'.chain n := by
  rw [chain, chain, hperm.length_eq]
  exact chainFrom_congr (get?_perm hperm hnodup) _ _ _

theorem findMethods_perm (hperm : r.classes.Perm r'.classes) (hnodup : (r.classes.map (·.name)).Nodup) (n : Name)
    (name : String) : r.findMethods n name = r'.findMethods n name := by
  rw [findMethods, findMethods, chain_perm hperm hnodup]

end Registry

theorem Inheritance.visit_congr {g g' : Inheritance} (hparents : ∀ n, g.parents n = g'.parents n) (fuel : Nat)
    (todo seen : List Name) : g.visit fuel todo seen = g'.visit fuel todo seen := by
  induction fuel generalizing todo seen with
  | zero => rw [visit, visit]
  | succ fuel ih =>
    cases todo with
    | nil => rw [visit, visit]
    | cons n todo => rw [visit, visit, ih, ih, hparents]

theorem Registry.isCyclic_perm {r r' : Registry} (hperm : r.classes.Perm r'.classes)
    (hnodup : (r.classes.map (·.name)).Nodup) (n : Name) : r.inheritance.isCyclic n = r'.inheritance.isCyclic n := by
  have hnodup' : (r'.classes.map (·.name)).Nodup := (hperm.map _).nodup_iff.1 hnodup
  have hparents : ∀ n, r.inheritance.parents n = r'.inheritance.parents n := by
    intro n
    rw [parents_inheritance hnodup, parents_inheritance hnodup', get?_perm hperm hnodup]
  have hedges : r.inheritance.edges.length = r'.inheritance.edges.length := (hperm.filterMap _).length_eq
  have hancestors : r.inheritance.ancestors n = r'.inheritance.ancestors n := by
    simp only [Inheritance.ancestors, hparents, hedges, Inheritance.visit_congr hparents]
  rw [Inheritance.isCyclic, Inheritance.isCyclic, hancestors]

/-! ## Type references -/

namespace Site

variable {r r' : Registry} {cls : Name} {member : Option String}

theorem checkType_congr (hcontains : ∀ n, r.contains n = r'.contains n) (t : Ty) :
    checkType ⟨r, cls, member⟩ t = checkType ⟨r', cls, member⟩ t := by
  cases t <;> simp only [checkType, hcontains, report]

theorem checkValueType_congr (hcontains : ∀ n, r.contains n = r'.contains n) (t : Ty) :
    checkValueType ⟨r, cls, member⟩ t = checkValueType ⟨r', cls, member⟩ t := by
  simp only [checkValueType, checkType_congr hcontains, report]

mutual

theorem checkExpr_congr (hcontains : ∀ n, r.contains n = r'.contains n) :
    ∀ e, checkExpr ⟨r, cls, member⟩ e = checkExpr ⟨r', cls, member⟩ e
  | .lit _ | .var _ | .this | .outer => by simp only [checkExpr]
  | .field target _ => by simp only [checkExpr, checkExpr_congr hcontains target]
  | .assign target value => by simp only [checkExpr, checkExpr_congr hcontains target, checkExpr_congr hcontains value]
  | .call receiver _ args => by simp only [checkExpr, checkExpr_congr hcontains receiver, checkExprs_congr hcontains args]
  | .staticCall cls _ args => by simp only [checkExpr, checkType_congr hcontains, checkExprs_congr hcontains args]
  | .new cls args => by simp only [checkExpr, checkType_congr hcontains, checkExprs_congr hcontains args]
  | .binary _ left right => by simp only [checkExpr, checkExpr_congr hcontains left, checkExpr_congr hcontains right]
  | .unary _ operand => by simp only [checkExpr, checkExpr_congr hcontains operand]

theorem checkExprs_congr (hcontains : ∀ n, r.contains n = r'.contains n) :
    ∀ es, checkExprs ⟨r, cls, member⟩ es = checkExprs ⟨r', cls, member⟩ es
  | [] => by simp only [checkExprs]
  | e :: rest => by simp only [checkExprs, checkExpr_congr hcontains e, checkExprs_congr hcontains rest]

end

mutual

theorem checkStmt_congr (hcontains : ∀ n, r.contains n = r'.contains n) :
    ∀ allowSuper x found, checkStmt ⟨r, cls, member⟩ allowSuper x found = checkStmt ⟨r', cls, member⟩ allowSuper x found
  | _, .block stmts, found => by simp only [checkStmt, checkStmts_congr hcontains]
  | _, .decl _ ty none, found => by simp only [checkStmt, checkValueType_congr hcontains]
  | _, .decl _ ty (some e), found => by
    simp only [checkStmt, checkValueType_congr hcontains, checkExpr_congr hcontains]
  | _, .expr e, found => by simp only [checkStmt, checkExpr_congr hcontains]
  | _, .ret none, found => by simp only [checkStmt]
  | _, .ret (some e), found => by simp only [checkStmt, checkExpr_congr hcontains]
  | _, .cond test t none, found => by simp only [checkStmt, checkExpr_congr hcontains, checkStmt_congr hcontains _ t]
  | _, .cond test t (some e), found => by
    simp only [checkStmt, checkExpr_congr hcontains, checkStmt_congr hcontains _ t, checkStmt_congr hcontains _ e]
  | _, .loop test body, found => by simp only [checkStmt, checkExpr_congr hcontains, checkStmt_congr hcontains _ body]
  | _, .superCall args, found => by simp only [checkStmt, checkExprs_congr hcontains, misplacedSuperCall, report]

theorem checkStmts_congr (hcontains : ∀ n, r.contains n = r'.contains n) :
    ∀ allowSuper xs found,
      checkStmts ⟨r, cls, member⟩ allowSuper xs found = checkStmts ⟨r', cls, member⟩ allowSuper xs found
  | _, [], found => by simp only [checkStmts]
  | _, x :: rest, found => by simp only [checkStmts, checkStmt_congr hcontains _ x, checkStmts_congr hcontains _ rest]

end

theorem checkBody_congr (hcontains : ∀ n, r.contains n = r'.contains n) (isConstructor : Bool) (body : List Stmt) :
    checkBody ⟨r, cls, member⟩ isConstructor body = checkBody ⟨r', cls, member⟩ isConstructor body := by
  rw [checkBody, checkBody, checkStmts_congr hcontains]

end Site

/-! ## Declarations -/

namespace ClassDef

variable {r r' : Registry} (d : ClassDef)

theorem gatherFields_congr (hcontains : ∀ n, r.contains n = r'.contains n) : d.gatherFields r = d.gatherFields r' := by
  have hfield : d.gatherField r = d.gatherField r' := by
    funext ⟨seen, g⟩ f
    simp only [gatherField, site, Site.checkValueType_congr hcontains, Site.checkExpr_congr hcontains, Site.report]
  rw [gatherFields, gatherFields, hfield]

theorem gatherMethods_congr (hcontains : ∀ n, r.contains n = r'.contains n) :
    d.gatherMethods r = d.gatherMethods r' := by
  have hmethod : d.gatherMethod r = d.gatherMethod r' := by
    funext g m
    simp only [gatherMethod, checkMethodBody, site, Site.checkValueType_congr hcontains, Site.checkType_congr hcontains,
      Site.checkBody_congr hcontains, Site.report]
  rw [gatherMethods, gatherMethods, hmethod]

theorem gatherConstructors_congr (hcontains : ∀ n, r.contains n = r'.contains n) :
    d.gatherConstructors r = d.gatherConstructors r' := by
  have hconstructor : d.gatherConstructor r = d.gatherConstructor r' := by
    funext g k
    simp only [gatherConstructor, site, Site.checkValueType_congr hcontains, Site.checkBody_congr hcontains, Site.report]
  rw [gatherConstructors, gatherConstructors, hconstructor]

theorem entry_congr (hcontains : ∀ n, r.contains n = r'.contains n) : d.entry r = d.entry r' := by
  rw [entry, entry, d.gatherFields_congr hcontains, d.gatherMethods_congr hcontains, d.gatherConstructors_congr hcontains]

/-- What is found about the declarations of a class depends on the registry only through what is found in it. -/
theorem checkDeclarations_congr (hget : ∀ n, r.get? n = r'.get? n) : d.checkDeclarations r = d.checkDeclarations r' := by
  have hcontains := Registry.contains_congr hget
  rw [checkDeclarations, checkDeclarations, d.gatherFields_congr hcontains, d.gatherMethods_congr hcontains,
    d.gatherConstructors_congr hcontains]
  simp only [checkEnclosing, checkSuperclass, superclassProblem?, hget]

/-- What is found about the members that a class inherits does not depend on the order of the registry. -/
theorem checkInherited_congr (hperm : r.classes.Perm r'.classes) (hnodup : (r.classes.map (·.name)).Nodup) :
    d.checkInherited r = d.checkInherited r' := by
  have himplements : d.implements r = d.implements r' := by
    funext m
    rw [implements, implements, Registry.findMethods_perm hperm hnodup]
  simp only [checkInherited, checkImplemented, Registry.isCyclic_perm hperm hnodup, Registry.get?_perm hperm hnodup,
    Registry.chain_perm hperm hnodup, himplements]

end ClassDef

/-! ## Resolution -/

/-- Of findings that each name their class, those that name one of the classes are the findings about it. -/
theorem About.filter_flatMap {f : ClassDef → List Diagnostic} (habout : ∀ d, About d.name (f d)) {ds : List ClassDef}
    (hnodup : (ds.map ClassDef.name).Nodup) {d : ClassDef} (hd : d ∈ ds) :
    (ds.flatMap f).filter (·.cls = d.name.text) = f d := by
  have hown : ∀ d, (f d).filter (·.cls = d.name.text) = f d := by
    intro d
    exact List.filter_eq_self.2 fun x hx => by simpa using (habout d x hx).2
  have hother : ∀ ds : List ClassDef, d.name ∉ ds.map ClassDef.name → (ds.flatMap f).filter (·.cls = d.name.text) = [] := by
    intro ds hd
    refine List.filter_eq_nil_iff.2 fun x hx heq => hd ?_
    obtain ⟨d', hd', hx⟩ := List.mem_flatMap.1 hx
    have htext : d'.name.text = d.name.text := (habout d' x hx).2.symm.trans (by simpa using heq)
    exact List.mem_map.2 ⟨d', hd', Name.text_inj.1 htext⟩
  induction ds with
  | nil => cases hd
  | cons d' ds ih =>
    rw [List.map_cons, List.nodup_cons] at hnodup
    rw [List.flatMap_cons, List.filter_append]
    rcases List.mem_cons.1 hd with rfl | hd
    · rw [hown, hother ds hnodup.1, List.append_nil]
    · rw [ih hnodup.2 hd]
      have hne : d.name ∉ [d'].map ClassDef.name := by
        intro hmem
        rw [List.map_singleton, List.mem_singleton] at hmem
        exact hnodup.1 (hmem ▸ List.mem_map_of_mem hd)
      have hnone := hother [d'] hne
      rw [List.flatMap_singleton] at hnone
      rw [hnone, List.nil_append]

namespace Registry

variable {ds ds' : List ClassDef}

/-- The findings that name a class are those about its modifiers, its declarations and what it inherits. -/
theorem findings_eq (hnodup : (ds.map ClassDef.name).Nodup) (hhost : ∀ d ∈ ds, HostClass.ofName? d.name = none)
    {d : ClassDef} (hd : d ∈ ds) :
    (host.resolve ds).2.filter (·.cls = d.name.text) =
      d.checkModifiers ++ d.checkDeclarations (headers ds) ++ d.checkInherited (entries ds) := by
  rw [(host_resolve hnodup hhost).2, List.filter_append, List.filter_append,
    About.filter_flatMap (fun _ => ClassDef.ordinary_checkModifiers.about) hnodup hd,
    About.filter_flatMap (fun _ => ClassDef.about_checkDeclarations) hnodup hd,
    About.filter_flatMap (fun _ => ClassDef.about_checkInherited) hnodup hd]

/-- For classes with distinct names, none of them a name of the host library, the order in which they are resolved changes
neither the findings about each of them nor the entry that is found under any name. -/
theorem resolve_perm (hperm : ds.Perm ds') (hnodup : (ds.map ClassDef.name).Nodup)
    (hhost : ∀ d ∈ ds, HostClass.ofName? d.name = none) :
    (∀ d ∈ ds, (host.resolve ds).2.filter (·.cls = d.name.text) = (host.resolve ds').2.filter (·.cls = d.name.text)) ∧
      (∀ d ∈ ds, ((host.resolve ds).1.get? d.name).isSome = true) ∧
      ∀ n, (host.resolve ds).1.get? n = (host.resolve ds').1.get? n := by
  have hnodup' : (ds'.map ClassDef.name).Nodup := (hperm.map _).nodup_iff.1 hnodup
  have hhost' : ∀ d ∈ ds', HostClass.ofName? d.name = none := fun d hd => hhost d (hperm.mem_iff.2 hd)
  have hheaders : (headers ds).classes.Perm (headers ds').classes := (hperm.map _).append_left _
  have hnodupHeaders : ((headers ds).classes.map (·.name)).Nodup := by
    have hsame : (headers ds).classes.map (·.name) = (entries ds).classes.map (·.name) := by
      simp [headers, entries, ClassDef.header, ClassDef.entry]
    rw [hsame]
    exact nodup_entries hnodup hhost
  have hget := get?_perm hheaders hnodupHeaders
  have hentry : ClassDef.entry (headers ds) = ClassDef.entry (headers ds') :=
    funext fun d => d.entry_congr (contains_congr hget)
  have hentries : (entries ds).classes.Perm (entries ds').classes := by
    rw [entries, entries, hentry]
    exact (hperm.map _).append_left _
  have hnodupEntries := nodup_entries hnodup hhost
  refine ⟨fun d hd => ?_, fun d hd => ?_, fun n => ?_⟩
  · rw [findings_eq hnodup hhost hd, findings_eq hnodup' hhost' (hperm.mem_iff.1 hd), d.checkDeclarations_congr hget,
      d.checkInherited_congr hentries hnodupEntries]
  · rw [(host_resolve hnodup hhost).2, get?_entries hnodup hhost hd]
    rfl
  · rw [(host_resolve hnodup hhost).2, (host_resolve hnodup' hhost').2]
    exact get?_perm hentries hnodupEntries n

end Registry

/-! ## An example -/

namespace Tangle

def headName : Name := .ofPath ["Head"] (Eq.refl true)

def tailName : Name := .ofPath ["Tail"] (Eq.refl true)

def biteName : Name := .ofPath ["Tail", "Bite"] (Eq.refl true)

/-- A class that inherits from itself over another one. -/
def head : ClassDef where
  name := headName
  superclass := tailName

/-- The other class, with a method whose result is a class that is not there. -/
def tail : ClassDef where
  name := tailName
  superclass := headName
  members := [.method ⟨"bite", .pub, [], .ref (.ofPath ["Prey"] (Eq.refl true)), some []⟩]

/-- A class nested in it. -/
def bite : ClassDef where
  name := biteName
  enclosing := some tailName

def classes : List ClassDef := [bite, head, tail]

/-- What is wrong with the class that has the method. -/
def findings : List Diagnostic := [
  .ofMember .unknownType "Tail" "bite" "unknown type 'Prey'",
  .ofClass .circularInheritance "Tail" "class 'Tail' inherits from itself"]

theorem findings_tail : (Registry.host.resolve classes).2.filter (·.cls = tail.name.text) = findings := by decide +kernel

end Tangle

theorem Registry.resolve_perm_tangle :
    Tangle.classes.Perm Tangle.classes.reverse ∧ (Tangle.classes.map ClassDef.name).Nodup ∧
      (∀ d ∈ Tangle.classes, HostClass.ofName? d.name = none) ∧
      (Registry.host.resolve Tangle.classes.reverse).2.filter (·.cls = Tangle.tail.name.text) = Tangle.findings ∧
      ∀ n, (Registry.host.resolve Tangle.classes).1.get? n = (Registry.host.resolve Tangle.classes.reverse).1.get? n := by
  have hperm : Tangle.classes.Perm Tangle.classes.reverse := (List.reverse_perm _).symm
  have hnodup : (Tangle.classes.map ClassDef.name).Nodup := by decide
  have hhost : ∀ d ∈ Tangle.classes, HostClass.ofName? d.name = none := by decide
  obtain ⟨hfindings, -, hentries⟩ := Registry.resolve_perm hperm hnodup hhost
  have htail := hfindings Tangle.tail (by simp [Tangle.classes])
  exact ⟨hperm, hnodup, hhost, htail.symm.trans Tangle.findings_tail, hentries⟩

end ClassTree
