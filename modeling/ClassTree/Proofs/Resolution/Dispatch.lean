import ClassTree.Proofs.Registry.Chain
import ClassTree.Proofs.Resolution

/-!
# What overriding keeps

Resolution compares each method only with the nearest one that it overrides (`Registry.KeepsInherited`). Along a chain
without cycles that is enough for any two levels: by induction on the chain, the method that a class has for given
parameters keeps the result type of every method with these parameters further up, and it is that method itself if that one
is final (`Registry.Acyclic.firstMethod?_of_suffix`). A class that is not abstract has a body for each of them
(`Registry.Concrete`), so a call that is dispatched to any subclass finds one method that keeps what was declared
(`Registry.dispatch_keeps_declared`).
-/

namespace ClassTree.Registry

variable {r : Registry}

/-! ## Chains that keep what they inherit -/

/-- A method that takes the place of an inherited one has its result type, and the inherited one is not final. -/
def KeepsInherited (r : Registry) : Prop :=
  ∀ n e s, r.get? n = some e → e.superclass = some s → ∀ m ∈ e.methods, ∀ base,
    firstMethod? (r.chain s) m.name m.params = some base → base.ret = m.ret ∧ base.modifiers.isFinal = false

/-- No method that a class has or inherits is abstract, unless the class is. -/
def Concrete (r : Registry) : Prop :=
  ∀ n e, r.get? n = some e → e.isAbstract = false → ∀ name params m,
    firstMethod? (r.chain n) name params = some m → m.modifiers.isAbstract = false

theorem firstMethod?_cons {e : ClassEntry} {es : List ClassEntry} {name : String} {params : List Ty} :
    firstMethod? (e :: es) name params =
      ((e.ownMethods name).find? (·.params = params)).or (firstMethod? es name params) := by
  simp [firstMethod?]

/-- Along a chain without cycles, what holds of each method and the nearest one that it overrides holds of any two of them. -/
theorem Acyclic.firstMethod?_related (hr : r.Acyclic) {R : MethodEntry → MethodEntry → Prop} (hrefl : ∀ m, R m m)
    (htrans : ∀ {a b c}, R a b → R b c → R a c)
    (hstep : ∀ n e s, r.get? n = some e → e.superclass = some s → ∀ m ∈ e.methods, ∀ base,
      firstMethod? (r.chain s) m.name m.params = some base → R m base)
    {n : Name} {es tail : List ClassEntry} {name : String} {params : List Ty} {m : MethodEntry} (hline : r.Line n es)
    (htail : tail <:+ es) (hm : firstMethod? tail name params = some m) :
    ∃ m', firstMethod? es name params = some m' ∧ R m' m := by
  induction hline with
  | unregistered hn =>
    rw [List.suffix_nil] at htail
    rw [htail] at hm
    cases hm
  | @root n e hn hs =>
    rcases List.suffix_cons_iff.1 htail with rfl | htail
    · exact ⟨m, hm, hrefl m⟩
    · rw [List.suffix_nil.1 htail] at hm
      cases hm
  | @step n s e es hn hs hrest ih =>
    rcases List.suffix_cons_iff.1 htail with rfl | htail
    · exact ⟨m, hm, hrefl m⟩
    · obtain ⟨base, hbase, hrelated⟩ := ih htail
      rw [firstMethod?_cons, hbase]
      cases hown : (e.ownMethods name).find? (·.params = params) with
      | none => exact ⟨base, rfl, hrelated⟩
      | some m' =>
        obtain ⟨hm', hname⟩ := List.mem_filter.1 (List.mem_of_find?_eq_some hown)
        have hname : m'.name = name := by simpa using hname
        have hparams : m'.params = params := by simpa using List.find?_some hown
        rw [← (hr.line_chain s).unique hrest, ← hname, ← hparams] at hbase
        exact ⟨m', rfl, htrans (hstep n e s hn hs m' hm' base hbase) hrelated⟩

/-- The method that a class has for given parameters keeps what any method of these parameters further up declares. -/
theorem Acyclic.firstMethod?_of_suffix (hr : r.Acyclic) (hkeeps : r.KeepsInherited) {n : Name} {es tail : List ClassEntry}
    {name : String} {params : List Ty} {m : MethodEntry} (hline : r.Line n es) (htail : tail <:+ es)
    (hm : firstMethod? tail name params = some m) :
    ∃ m', firstMethod? es name params = some m' ∧ m'.ret = m.ret ∧ (m.modifiers.isFinal = true → m' = m) := by
  refine hr.firstMethod?_related (R := fun m' m => m'.ret = m.ret ∧ (m.modifiers.isFinal = true → m' = m))
    (fun _ => ⟨rfl, fun _ => rfl⟩) (fun hab hbc => ⟨hab.1.trans hbc.1, fun hc => ?_⟩) (fun n e s hn hs m' hm' base hbase => ?_)
    hline htail hm
  · obtain rfl := hbc.2 hc
    exact hab.2 hc
  · obtain ⟨hret, hfinal⟩ := hkeeps n e s hn hs m' hm' base hbase
    refine ⟨hret.symm, fun hbaseFinal => ?_⟩
    rw [hfinal] at hbaseFinal
    cases hbaseFinal

/-! ## Classes that were accepted -/

theorem chain_host {ds : List ClassDef} (hr : (entries ds).Acyclic) {e : ClassEntry} (he : e ∈ Host.classes)
    (hget : (entries ds).get? e.name = some e) :
    (entries ds).chain e.name = e :: if e.superclass.isSome then [Host.objectEntry] else [] := by
  have hobject : (entries ds).chain .object = [Host.objectEntry] := by
    rw [hr.chain_eq (e := Host.objectEntry) rfl]
    rfl
  rw [hr.chain_eq hget]
  simp only [Host.classes, List.mem_cons, List.not_mem_nil, or_false] at he
  rcases he with rfl | rfl | rfl
  · rfl
  · exact congrArg (Host.stringEntry :: ·) hobject
  · exact congrArg (Host.stringBuilderEntry :: ·) hobject

/-- A host class extends at most the root class. -/
theorem superclass_host {e : ClassEntry} (he : e ∈ Host.classes) {s : Name} (hs : e.superclass = some s) : s = .object := by
  simp only [Host.classes, List.mem_cons, List.not_mem_nil, or_false] at he
  rcases he with rfl | rfl | rfl
  · cases hs
  · exact (Option.some.inj hs).symm
  · exact (Option.some.inj hs).symm

/-- The root class extends none. -/
theorem not_extends_object {ds : List ClassDef} {b : Name} : ¬ (entries ds).Extends .object b := by
  intro hb
  cases hb

section Accepted

variable {ds : List ClassDef} (hnodup : (ds.map ClassDef.name).Nodup)
  (hhost : ∀ d ∈ ds, HostClass.ofName? d.name = none)

include hnodup hhost

/-- The names of the host library and of classes with new names are distinct. -/
theorem nodup_entries : ((entries ds).classes.map (·.name)).Nodup := by
  have hdefs : (ds.map (ClassDef.entry (headers ds))).map (·.name) = ds.map ClassDef.name := by
    rw [List.map_map]
    rfl
  rw [entries, List.map_append, hdefs, List.nodup_append]
  refine ⟨by decide, hnodup, fun a ha b hb => ?_⟩
  obtain ⟨e, he, rfl⟩ := List.mem_map.1 ha
  obtain ⟨d, hd, rfl⟩ := List.mem_map.1 hb
  exact host_name_ne (hhost d hd) he

theorem get?_entries {d : ClassDef} (hd : d ∈ ds) : (entries ds).get? d.name = some (d.entry (headers ds)) :=
  get?_of_mem (e := d.entry (headers ds)) (nodup_entries hnodup hhost)
    (List.mem_append_right _ (List.mem_map_of_mem hd))

variable (hdeclarations : ∀ d ∈ ds, d.checkDeclarations (headers ds) = [])
  (hinherited : ∀ d ∈ ds, d.checkInherited (entries ds) = [])

omit hnodup hhost in
include hdeclarations in
theorem superclass_ne {d : ClassDef} (hd : d ∈ ds) : d.superclass ≠ d.name := by
  intro heq
  have hnone := hdeclarations d hd
  simp only [ClassDef.checkDeclarations, List.append_eq_nil_iff, ClassDef.checkSuperclass, List.map_eq_nil_iff,
    Option.toList_eq_nil_iff, ClassDef.superclassProblem?, heq, if_true] at hnone
  obtain ⟨⟨⟨⟨-, hproblem⟩, -⟩, -⟩, -⟩ := hnone
  split at hproblem <;> cases hproblem

omit hnodup hhost in
theorem mem_entries {e : ClassEntry} (he : e ∈ (entries ds).classes) :
    e ∈ Host.classes ∨ ∃ d ∈ ds, e = d.entry (headers ds) := by
  rcases List.mem_append.1 he with he | he
  · exact .inl he
  · obtain ⟨d, hd, rfl⟩ := List.mem_map.1 he
    exact .inr ⟨d, hd, rfl⟩

include hdeclarations hinherited

/-- No class inherits from itself if none was found to. -/
theorem acyclic_entries : (entries ds).Acyclic := by
  have hnames := nodup_entries hnodup hhost
  intro n hcycle
  obtain ⟨b, hnb, hbn⟩ := Relation.TransGen.head'_iff.1 hcycle
  obtain ⟨e, he, hs⟩ := Option.bind_eq_some_iff.1 hnb
  obtain ⟨hmem, rfl⟩ := get?_eq_some he
  rcases mem_entries hmem with hmem | ⟨d, hd, rfl⟩
  · obtain rfl := superclass_host hmem hs
    rcases Relation.ReflTransGen.cases_head hbn with heq | ⟨c, hc, -⟩
    · rw [← heq] at hnb
      exact not_extends_object hnb
    · exact not_extends_object hc
  · refine not_reaches_of_isCyclic hnames ?_ hcycle
    have hnone := hinherited d hd
    unfold ClassDef.checkInherited at hnone
    split at hnone
    · cases hnone
    · rename_i hok
      have hcyclic : (entries ds).inheritance.isCyclic d.name = false := by
        simpa [superclass_ne hdeclarations hd] using hok
      exact hcyclic

/-- The findings about the members that a class inherits. -/
theorem inherited_eq_nil {d : ClassDef} (hd : d ∈ ds) :
    (∀ m ∈ (d.entry (headers ds)).methods, d.checkOverride ((entries ds).chain d.superclass) m = []) ∧
      (d.isAbstract = false → d.checkImplemented (entries ds) ((entries ds).chain d.superclass) = []) := by
  have hr := acyclic_entries hnodup hhost hdeclarations hinherited
  have hget := get?_entries hnodup hhost hd
  have hnone := hinherited d hd
  have hdrop : ((entries ds).chain d.name).drop 1 = (entries ds).chain d.superclass := by
    rw [hr.chain_eq hget]
    rfl
  unfold ClassDef.checkInherited at hnone
  split at hnone
  · cases hnone
  · simp only [hget, hdrop, List.append_eq_nil_iff, List.flatMap_eq_nil_iff] at hnone
    refine ⟨hnone.1, fun habstract => ?_⟩
    have hconcrete : (d.entry (headers ds)).isAbstract = false := habstract
    simpa [hconcrete] using hnone.2

theorem keepsInherited_entries : (entries ds).KeepsInherited := by
  have hr := acyclic_entries hnodup hhost hdeclarations hinherited
  intro n e s hget hs m hm base hbase
  obtain ⟨hmem, rfl⟩ := get?_eq_some hget
  rcases mem_entries hmem with hmem | ⟨d, hd, rfl⟩
  · -- What the host library declares again is as the root class has it.
    have hall : ∀ e ∈ Host.classes, e.superclass.isSome → e.superclass = some .object ∧ ∀ m ∈ e.methods,
        ∀ base ∈ firstMethod? [Host.objectEntry] m.name m.params,
          base.ret = m.ret ∧ base.modifiers.isFinal = false := by decide +kernel
    obtain ⟨hobject, hmethods⟩ := hall e hmem (by rw [hs]; rfl)
    rw [hs, Option.some.injEq] at hobject
    subst hobject
    rw [hr.chain_eq (e := Host.objectEntry) rfl] at hbase
    exact hmethods m hm base hbase
  · obtain rfl : d.superclass = s := Option.some.inj hs
    have hnone := (inherited_eq_nil hnodup hhost hdeclarations hinherited hd).1 m hm
    unfold ClassDef.checkOverride at hnone
    rw [show List.find? _ _ = some base from hbase] at hnone
    simpa using hnone

theorem concrete_entries : (entries ds).Concrete := by
  have hr := acyclic_entries hnodup hhost hdeclarations hinherited
  intro n e hget habstract name params m hm
  obtain ⟨hmem, rfl⟩ := get?_eq_some hget
  obtain ⟨⟨e', he', hm'⟩, hname, hparams⟩ := firstMethod?_eq_some hm
  rcases mem_entries hmem with hmem | ⟨d, hd, rfl⟩
  · have hall : ∀ e ∈ Host.classes, ∀ m ∈ e.methods, m.modifiers.isAbstract = false := by decide
    rw [chain_host hr hmem hget, List.mem_cons] at he'
    rcases he' with rfl | he'
    · exact hall e' hmem m hm'
    · split at he'
      · rw [List.mem_singleton.1 he'] at hm'
        exact hall _ (by simp [Host.classes]) m hm'
      · cases he'
  · have hchain := hr.chain_eq hget
    rw [hchain, List.mem_cons] at he'
    rcases he' with rfl | he'
    · -- A method of the class itself has a body, and is not marked abstract.
      have hnone := hdeclarations d hd
      simp only [ClassDef.checkDeclarations, List.append_eq_nil_iff] at hnone
      obtain ⟨hentries, hclean, -⟩ := ClassDef.gatherMethods_clean hnone.1.2
      rw [ClassDef.entry, hentries] at hm'
      obtain ⟨x, hx, rfl⟩ := List.mem_map.1 hm'
      have hbody := (hclean x hx).body
      have hconcrete : d.isAbstract = false := habstract
      cases hxbody : x.body with
      | none => simp [ClassDef.checkMethodBody, hxbody, hconcrete, reportIf] at hbody
      | some body =>
        simp only [ClassDef.checkMethodBody, hxbody, List.append_eq_nil_iff, reportIf_eq_nil] at hbody
        simpa [ClassDef.methodEntry, hxbody] using hbody.1
    · have hnone := (inherited_eq_nil hnodup hhost hdeclarations hinherited hd).2 habstract
      have hfound : ((entries ds).findMethods d.name m.name).find? (·.params = m.params) = some m := by
        rw [← List.head?_filter, filter_findMethods, hname, hparams]
        rw [show (d.entry (headers ds)).name = d.name from rfl] at hm
        rw [hm]
        rfl
      simp only [ClassDef.checkImplemented, List.map_eq_nil_iff, List.filter_eq_nil_iff, List.mem_flatMap] at hnone
      have hm' := hnone m ⟨e', he', hm'⟩
      simpa [ClassDef.implements, hfound] using hm'

end Accepted

/-- In classes that are resolved without findings, the one method that a class which is not abstract has for the parameters
of a method of a superclass has a body and keeps the result type, and it is that method itself if that one is final. -/
theorem dispatch_keeps_declared {ds : List ClassDef} (h : (host.resolve ds).2 = []) {sub sup : Name} {entry : ClassEntry}
    (hentry : (host.resolve ds).1.get? sub = some entry) (hconcrete : entry.isAbstract = false)
    (hsub : (host.resolve ds).1.isSubclassOf sub sup = true) {name : String} {m : MethodEntry}
    (hm : m ∈ (host.resolve ds).1.findMethods sup name) :
    ∃ m', ((host.resolve ds).1.findMethods sub name).filter (·.params = m.params) = [m'] ∧
      m'.modifiers.isAbstract = false ∧ m'.ret = m.ret ∧ (m.modifiers.isFinal = true → m' = m) := by
  have hdeclared : (host.declareAll ds).2 = [] := by
    rw [resolve] at h
    simp only [List.append_eq_nil_iff] at h
    exact h.1.1
  obtain ⟨hnodup, hnew⟩ := names_of_declareAll hdeclared
  have hhost : ∀ d ∈ ds, HostClass.ofName? d.name = none := fun d hd => ofName?_of_contains (hnew d hd)
  have hresolve := (host_resolve hnodup hhost).2
  rw [hresolve] at h hentry hsub hm ⊢
  simp only [List.append_eq_nil_iff, List.flatMap_eq_nil_iff] at h
  obtain ⟨⟨-, hdeclarations⟩, hinherited⟩ := h
  have hr := acyclic_entries hnodup hhost hdeclarations hinherited
  have hfirst : firstMethod? ((entries ds).chain sup) name m.params = some m := by
    have hmem : m ∈ ((entries ds).findMethods sup name).filter (·.params = m.params) := List.mem_filter.2 ⟨hm, by simp⟩
    rwa [filter_findMethods, Option.mem_toList] at hmem
  obtain ⟨m', hm', hret, hfinal⟩ := hr.firstMethod?_of_suffix
    (keepsInherited_entries hnodup hhost hdeclarations hinherited) (hr.line_chain sub) (hr.chain_of_isSubclassOf hsub) hfirst
  refine ⟨m', ?_, ?_, hret, hfinal⟩
  · rw [filter_findMethods, hm']
    rfl
  · exact concrete_entries hnodup hhost hdeclarations hinherited sub entry hentry hconcrete name m.params m' hm'

end ClassTree.Registry

/-! ## An example -/

namespace ClassTree

namespace Shapes

def shapeName : Name := .ofPath ["Shape"] (Eq.refl true)

def polygonName : Name := .ofPath ["Polygon"] (Eq.refl true)

def squareName : Name := .ofPath ["Square"] (Eq.refl true)

/-- A class with a method that cannot be overridden and one that waits for a body. -/
def shape : ClassDef where
  name := shapeName
  modifiers := .pub ||| .abstract
  members := [
    .method ⟨"sides", .pub ||| .final, [⟨"scale", .int⟩], .int, some [.ret (some (.var "scale"))]⟩,
    .method ⟨"area", .pub ||| .abstract, [], .int, none⟩]

/-- A class between the two that declares the method without a body again. -/
def polygon : ClassDef where
  name := polygonName
  modifiers := .pub ||| .abstract
  superclass := shapeName
  members := [.method ⟨"area", .pub ||| .abstract, [], .int, none⟩]

/-- A class that gives the method its body. -/
def square : ClassDef where
  name := squareName
  superclass := polygonName
  members := [.method ⟨"area", .pub, [], .int, some [.ret (some (.call .this "sides" [.lit (.int 4)]))]⟩]

/-- The classes, each before its superclass. -/
def classes : List ClassDef := [square, polygon, shape]

/-- The method without a body, as the class at the top declares it. -/
def area : MethodEntry := ⟨shapeName, "area", .pub ||| .abstract, [], .int, false⟩

theorem resolved : (Registry.host.resolve classes).2 = [] ∧
    ((Registry.host.resolve classes).1.get? squareName).any (!·.isAbstract) = true ∧
    (Registry.host.resolve classes).1.isSubclassOf squareName shapeName = true ∧
    (Registry.host.resolve classes).1.findMethods shapeName "area" = [area] := by decide +kernel

theorem resolve_clean : (Registry.host.resolve classes).2 = [] := resolved.1

theorem exists_square :
    ∃ entry, (Registry.host.resolve classes).1.get? squareName = some entry ∧ entry.isAbstract = false := by
  obtain ⟨entry, hget, hconcrete⟩ := (Option.any_eq_true _ _).1 resolved.2.1
  exact ⟨entry, hget, by simpa using hconcrete⟩

theorem square_isSubclassOf : (Registry.host.resolve classes).1.isSubclassOf squareName shapeName = true := resolved.2.2.1

theorem findMethods_area : (Registry.host.resolve classes).1.findMethods shapeName "area" = [area] := resolved.2.2.2

end Shapes

theorem Registry.dispatch_keeps_declared_area :
    (Registry.host.resolve Shapes.classes).2 = [] ∧
      (Registry.host.resolve Shapes.classes).1.isSubclassOf Shapes.squareName Shapes.shapeName = true ∧
      Shapes.area ∈ (Registry.host.resolve Shapes.classes).1.findMethods Shapes.shapeName "area" ∧
      ∃ m', ((Registry.host.resolve Shapes.classes).1.findMethods Shapes.squareName "area").filter (·.params = []) = [m'] ∧
        m'.modifiers.isAbstract = false ∧ m'.ret = .int := by
  obtain ⟨entry, hget, hconcrete⟩ := Shapes.exists_square
  have hm : Shapes.area ∈ (Registry.host.resolve Shapes.classes).1.findMethods Shapes.shapeName "area" := by
    rw [Shapes.findMethods_area]
    exact List.mem_singleton_self _
  obtain ⟨m', hm', habstract, hret, -⟩ :=
    Registry.dispatch_keeps_declared Shapes.resolve_clean hget hconcrete Shapes.square_isSubclassOf hm
  exact ⟨Shapes.resolve_clean, Shapes.square_isSubclassOf, hm, m', hm', habstract, hret⟩

end ClassTree
