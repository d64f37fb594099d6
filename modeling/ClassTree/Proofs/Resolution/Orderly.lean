import ClassTree.Proofs.Compile.Orderly
import ClassTree.Proofs.Resolution.Generated
import ClassTree.Proofs.Resolution.Valued

/-!
# The code of checked classes keeps the discipline of the stack

Whatever is compiled with names as references keeps the discipline of the stack. With resolved references a method does that
was checked without findings (`Registry.Entered.method_sound`), and a constructor too: where it is compiled the outer instance is
visible besides, but if it makes code, its body is as well typed there (`compileStmt_wellTyped`,
`Registry.Entered.constructor_sound`). It takes that the fields of all classes hold values, whatever class they are in, for a
field of type `void` is found in its class alone (`Registry.compileMethod_keepsStack`).
-/

namespace ClassTree

open Gen

theorem Gen.Yields.and {α : Type} {x : Gen α} {S T : α → Prop} (hS : Yields x S) (hT : Yields x T) :
    Yields x fun a => S a ∧ T a := fun p a q heq => ⟨hS p a q heq, hT p a q heq⟩

theorem Gen.Settles.yields {α : Type} {E : Diagnostic → Prop} {x : Gen α} {Q : α → Prop} (h : Settles E x Q) :
    Yields x Q := fun _ _ _ heq => h.made heq

/-! ## Where more variables are visible -/

section Extended

variable {c : Context} {more : List Local}

theorem Context.Accepts.extends {s s' : Scope} (hnames : c.KeepsNames c.member s s') {e : Expr} {ty : Ty}
    (h : c.Accepts s e ty) : c.Accepts s' e ty := by
  obtain ⟨t, ht, hassignable⟩ := h
  exact ⟨t, typeOf_extends hnames ht, hassignable⟩

/-- A declaration that succeeds in both scopes shows the same variable in both. -/
theorem declareVar_extends {s s' : Scope} (h : s.Extends more s') {x : String} {ty : Ty} {slot : UInt16}
    (hnew : x ∉ more.map Local.name) (hd : s.Declares x ty slot) :
    Gen.Yields (declareVar c s' x ty) fun _ =>
      (∃ slot', s'.Declares x ty slot') ∧ (s.declare x ty).2.Extends more (s'.declare x ty).2 := by
  intro p a q heq
  have hd' := declareVar_yields c s' x ty p a q heq
  refine ⟨⟨a.1, by rw [Scope.Declares, hd']⟩, ?_⟩
  rw [hd']
  exact h.declare hnew (Prod.ext hd rfl) hd'

mutual

/-- A statement that is well typed, and makes code where more variables are visible, is well typed there too, if it declares
none of their names. -/
theorem compileStmt_wellTyped (hnames : ∀ {s s'}, s.Extends more s' → c.KeepsNames c.member s s') :
    ∀ {x : Stmt} {s s' : Scope}, x.WellTyped c s → (∀ y ∈ x.declared, y ∉ more.map Local.name) → s.Extends more s' →
      Gen.Yields (compileStmt .static c x s') fun _ => x.WellTyped c s' ∧ (x.after s).Extends more (x.after s')
  | .block stmts, s, s', hw, hnew, h => by
    rw [Stmt.WellTyped] at hw
    rw [Stmt.declared] at hnew
    rw [compileStmt, Stmt.WellTyped, Stmt.after, Stmt.after]
    refine .bind (compileStmts_wellTyped hnames hw hnew h.enter .empty) fun _ hstmts => .pure ⟨hstmts.1, hstmts.2.pop ?_⟩
    rw [depth_afterAll]
    exact Nat.succ_pos _
  | .decl name ty none, s, s', hw, hnew, h => by
    rw [Stmt.WellTyped] at hw
    obtain ⟨slot, hslot⟩ := hw
    rw [compileStmt, Stmt.WellTyped, Stmt.after, Stmt.after]
    have hname := hnew name (by simp [Stmt.declared])
    exact .bind .of_true fun _ _ => .bind (declareVar_extends h hname hslot) fun _ hvar => .pure hvar
  | .decl name ty (some e), s, s', hw, hnew, h => by
    rw [Stmt.WellTyped] at hw
    obtain ⟨he, slot, hslot⟩ := hw
    rw [compileStmt, Stmt.WellTyped, Stmt.after, Stmt.after]
    have hname := hnew name (by simp [Stmt.declared])
    refine .bind .of_true fun _ _ => .bind (declareVar_extends h hname hslot) fun _ hvar => ?_
    exact .pure ⟨⟨he.extends (hnames h), hvar.1⟩, hvar.2⟩
  | .expr e, s, s', hw, _, h => by
    rw [Stmt.WellTyped] at hw
    obtain ⟨t, ht⟩ := hw
    rw [compileStmt, Stmt.WellTyped, Stmt.after, Stmt.after]
    exact .bind .of_true fun _ _ => .pure ⟨⟨t, Context.typeOf_extends (hnames h) ht⟩, h⟩
  | .ret none, s, s', hw, _, h => by
    rw [Stmt.WellTyped] at hw
    rw [compileStmt, Stmt.WellTyped, Stmt.after, Stmt.after]
    exact .pure ⟨hw, h⟩
  | .ret (some e), s, s', hw, _, h => by
    rw [Stmt.WellTyped] at hw
    rw [Stmt.WellTyped, Stmt.after, Stmt.after]
    exact fun _ _ _ _ => ⟨⟨hw.1, hw.2.extends (hnames h)⟩, h⟩
  | .cond test t none, s, s', hw, hnew, h => by
    rw [Stmt.WellTyped] at hw
    rw [Stmt.declared] at hnew
    rw [compileStmt, Stmt.WellTyped, Stmt.after, Stmt.after]
    refine .bind .of_true fun _ _ => .bind (compileStmt_wellTyped hnames hw.2 hnew h.enter) fun _ ht => .pure ?_
    exact ⟨⟨Context.typeOf_extends (hnames h) hw.1, ht.1⟩, t.extends_pop ht.2⟩
  | .cond test t (some e), s, s', hw, hnew, h => by
    rw [Stmt.WellTyped] at hw
    rw [Stmt.declared, List.forall_mem_append] at hnew
    rw [compileStmt, Stmt.WellTyped, Stmt.after, Stmt.after]
    have ht := (compileStmt_yields .static c t s'.enter).and (compileStmt_wellTyped hnames hw.2.1 hnew.1 h.enter)
    refine .bind .of_true fun _ _ => .bind ht fun a ha => ?_
    obtain ⟨hscope, ht, hextends⟩ := ha
    dsimp only
    rw [hscope]
    refine .bind (compileStmt_wellTyped hnames hw.2.2 hnew.2 (t.extends_pop hextends).enter) fun _ he => .pure ?_
    exact ⟨⟨Context.typeOf_extends (hnames h) hw.1, ht, he.1⟩, e.extends_pop he.2⟩
  | .loop test body, s, s', hw, hnew, h => by
    rw [Stmt.WellTyped] at hw
    rw [Stmt.declared] at hnew
    rw [compileStmt, Stmt.WellTyped, Stmt.after, Stmt.after]
    refine .bind .of_true fun _ _ => .bind (compileStmt_wellTyped hnames hw.2 hnew h.enter) fun _ hbody => .pure ?_
    exact ⟨⟨Context.typeOf_extends (hnames h) hw.1, hbody.1⟩, body.extends_pop hbody.2⟩
  | .superCall _, _, _, _, _, _ => by
    rw [compileStmt]
    exact .throw

theorem compileStmts_wellTyped (hnames : ∀ {s s'}, s.Extends more s' → c.KeepsNames c.member s s') :
    ∀ {xs : List Stmt} {s s' : Scope}, allWellTyped c xs s → (∀ y ∈ declaredAll xs, y ∉ more.map Local.name) →
      s.Extends more s' → ∀ done, Gen.Yields (compileStmts .static c xs s' done) fun _ =>
        allWellTyped c xs s' ∧ (afterAll xs s).Extends more (afterAll xs s')
  | [], s, s', _, _, h, done => by
    rw [compileStmts, allWellTyped, afterAll, afterAll]
    exact .pure ⟨trivial, h⟩
  | x :: rest, s, s', hw, hnew, h, done => by
    rw [allWellTyped] at hw
    rw [declaredAll, List.forall_mem_append] at hnew
    rw [compileStmts, allWellTyped, afterAll, afterAll]
    have hx := (compileStmt_yields .static c x s').and (compileStmt_wellTyped hnames hw.1 hnew.1 h)
    refine .bind hx fun a ha => ?_
    obtain ⟨hscope, hx, hextends⟩ := ha
    dsimp only
    rw [hscope]
    intro p a q heq
    obtain ⟨hrest, hafter⟩ := compileStmts_wellTyped hnames hw.2 hnew.2 hextends _ p a q heq
    exact ⟨⟨hx, hrest⟩, hafter⟩

end

end Extended

/-! ## Lowered members -/

theorem ClassDef.returns_of_mem_lower {d : ClassDef} {optimize : Bool} {m : LoweredMethod}
    (hm : m ∈ (d.lower optimize).methods) : m.body.returns = true := by
  rcases List.mem_append.1 hm with hm | hm
  · obtain ⟨k, -, rfl⟩ := List.mem_map.1 hm
    exact anyReturns_lowerBody optimize _
  · obtain ⟨m, -, rfl⟩ := List.mem_map.1 hm
    unfold lowerMethod
    split
    · exact anyReturns_lowerBody optimize _
    · rfl

theorem Context.valued_firstScope (c : Context) : c.firstScope.Valued := by
  unfold firstScope
  split
  · exact Scope.valued_ofStatic
  · exact Scope.valued_ofInstance

/-- Expressions as statements declare nothing, so all of them see the same variables. -/
theorem placed_exprs {xs : List Stmt} (h : ∀ x ∈ xs, ∃ e, x = .expr e) {s : Scope} :
    ∀ y ∈ placed xs s, y.1 ∈ xs ∧ y.2 = s := by
  induction xs with
  | nil => exact fun y hy => nomatch hy
  | cons x xs ih =>
    obtain ⟨e, rfl⟩ := h x List.mem_cons_self
    intro y hy
    rcases List.mem_cons.1 hy with rfl | hy
    · exact ⟨List.mem_cons_self, rfl⟩
    · obtain ⟨hmem, hscope⟩ := ih (fun x hx => h x (List.mem_cons_of_mem _ hx)) y hy
      exact ⟨List.mem_cons_of_mem _ hmem, hscope⟩

namespace Registry.Entered

variable {r declared : Registry} {d : ClassDef}

/-- A method that was checked is sound. -/
theorem method_sound (h : r.Entered declared d) (hg : r.Valued) {m : MethodDef} (hm : m ∈ d.methods)
    (hcheck : ClassDef.checkMethod r (d.entry declared) m = []) (optimize : Bool) :
    let l := ClassDef.lowerMethod optimize m
    l.Sound .static (LoweredClass.context r (d.entry declared) l) := by
  dsimp only
  obtain ⟨hparams, hvars⟩ := h.vars_method hm
  cases hbody : m.body with
  | none =>
    rw [ClassDef.lowerMethod, hbody]
    refine ⟨fun y hy => absurd hy List.not_mem_nil, fun _ _ _ _ habstract => ?_⟩
    cases habstract
  | some body =>
    obtain ⟨-, hw, hreturns⟩ := (ClassDef.checkMethod_eq_nil hbody).1 hcheck
    rw [ClassDef.lowerMethod, hbody]
    refine ⟨fun y hy hb => ?_, fun _ _ _ _ hconstructor => ?_⟩
    · rw [List.mem_singleton.1 hy]
      refine ⟨hg, lowerBody_wellTyped optimize hw hreturns, ?_, (Context.valued_firstScope _).afterParams hparams⟩
      rw [Stmt.varTypes, varTypesAll_lowerBody]
      exact hvars body hbody
    · cases hconstructor

theorem isVoid_of_mem_outerParams : ∀ p ∈ d.outerParams, p.ty.isVoid = false := by
  intro p hp
  obtain ⟨n, -, rfl⟩ := List.mem_map.1 hp
  rfl

/-- A constructor that was checked is sound if it makes code. -/
theorem constructor_sound (h : r.Entered declared d) (hg : r.Valued) {k : ConstructorDef} (hk : k ∈ d.allConstructors)
    (hcheck : ClassDef.checkConstructor r (d.entry declared) k = [])
    (hfields : ∀ f ∈ d.fields, ClassDef.checkField r (d.entry declared) f = [])
    (hparams : outerField ∉ k.params.map Param.name) (hlocals : outerField ∉ declaredAll k.body) (optimize : Bool) :
    let l := d.lowerConstructor optimize k
    let c := LoweredClass.context r (d.entry declared) l
    Gen.Yields (compileMethod .static c l) fun _ => l.Sound .static c := by
  obtain ⟨hdeclares, ⟨ts, m, hts, -⟩, hw⟩ := ClassDef.checkConstructor_eq_nil.1 hcheck
  obtain ⟨hvoid, hvars⟩ := h.vars_constructor hk
  have hc : LoweredClass.context r (d.entry declared) (d.lowerConstructor optimize k) =
      .ofConstructor r (d.entry declared) := by
    rw [ClassDef.lowerConstructor_eq, LoweredClass.context, Context.ofConstructor, h.isStatic_constructor hk]
  have hnames : ∀ {s s'}, s.Extends d.outerLocals s' →
      (Context.ofConstructor r (d.entry declared)).KeepsNames constructorName s s' :=
    fun hs => h.keepsNames _ rfl rfl constructorName hs
  have hnew : ∀ x ∈ declaredAll (lowerBody optimize (splitSuperCall k.body).2), x ∉ d.outerLocals.map Local.name := by
    intro x hx
    rw [declaredAll_lowerBody] at hx
    refine ClassDef.not_mem_outerLocals ?_
    rintro rfl
    exact hlocals (ClassDef.declaredAll_splitSuperCall hx)
  have hscope : (afterParams (d.outerParams ++ k.params) .ofInstance).Valued :=
    Scope.valued_ofInstance.afterParams (List.forall_mem_append.2 ⟨isVoid_of_mem_outerParams, hvoid⟩)
  dsimp only
  rw [hc, ClassDef.lowerConstructor_eq, compileMethod]
  have hparams' := (declareParams_yields _ (d.outerParams ++ k.params) .ofInstance).and
    (ClassDef.declareParams_constructor (Context.ofConstructor r (d.entry declared)) hparams hdeclares).yields
  refine .bind hparams' fun s hs => ?_
  obtain ⟨⟨rfl, -⟩, hs⟩ := hs
  have hbody := compileStmt_wellTyped (x := .block (lowerBody optimize (splitSuperCall k.body).2)) hnames
    (lowerBody_wellTyped optimize hw (.inl rfl)) (by rw [Stmt.declared]; exact hnew) hs
  refine .bind .of_true fun _ _ => .bind .of_true fun _ _ => .bind hbody fun _ hbody _ _ _ _ => ?_
  refine ⟨List.forall_mem_cons.2 ⟨fun _ => ⟨hg, hbody.1, ?_, hscope⟩, fun y hy _ => ⟨hg, ?_⟩⟩, fun _ _ _ _ heq => ?_⟩
  · rw [Stmt.varTypes, varTypesAll_lowerBody]
    exact hvars
  · rw [ClassDef.initializerScope_outer hparams] at hy
    have hinits := h.typeOf_initializers hfields optimize
    obtain ⟨hmem, heq⟩ := placed_exprs (fun x hx => (hinits x hx).imp fun _ he => he.choose_spec.1) y hy
    obtain ⟨e, t, hexpr, ht⟩ := hinits y.1 hmem
    rw [hexpr, heq]
    refine ⟨?_, fun t ht => ?_, Scope.valued_ofInstance.afterParams isVoid_of_mem_outerParams⟩
    · rw [Stmt.WellTyped]
      exact ⟨t, ht⟩
    · rw [Stmt.varTypes] at ht
      cases ht
  · cases heq
    exact ⟨ts, Context.typesOf_optimized (Context.typesOf_extends (hnames hs) hts)⟩

end Registry.Entered

/-! ## Classes -/

/-- What is asked of a class, of those that are resolved with it, and of its constructors where references are resolved
beforehand: nothing is found in the class, all fields hold values, and no variable of a constructor has the name of the outer
instance. -/
structure ClassDef.Checked (ds : List ClassDef) (d : ClassDef) : Prop where
  resolved : ∀ x ∈ (Registry.host.resolve ds).2, x.cls ≠ d.name.text
  checked : d.check (Registry.host.resolve ds).1 = []
  fields : ∀ d' ∈ ds, ∀ f ∈ d'.fields, f.ty.isVoid = false
  constructors : ∀ k ∈ d.constructors, outerField ∉ k.params.map Param.name ∧ outerField ∉ declaredAll k.body

/-- A lowered method of a checked class is sound if it makes code. -/
theorem ClassDef.Checked.sound {ds : List ClassDef} {d : ClassDef} (h : d.Checked ds) (hd : d ∈ ds) {entry : ClassEntry}
    (hentry : (Registry.host.resolve ds).1.get? d.name = some entry) {optimize : Bool} {m : LoweredMethod}
    (hm : m ∈ (d.lower optimize).methods) :
    let c := LoweredClass.context (Registry.host.resolve ds).1 entry m
    Gen.Yields (compileMethod .static c m) fun _ => m.Sound .static c := by
  have hentered := Registry.entered_resolve hd h.resolved
  have hvalued := Registry.valued_host.resolve h.fields
  have hchecked := h.checked
  rw [hentered.get] at hentry
  cases hentry
  rw [ClassDef.check, hentered.get] at hchecked
  simp only [List.append_eq_nil_iff, List.flatMap_eq_nil_iff] at hchecked
  obtain ⟨⟨hfields, hmethods⟩, hconstructors⟩ := hchecked
  rcases List.mem_append.1 hm with hm | hm
  · obtain ⟨k, hk, rfl⟩ := List.mem_map.1 hm
    have hnames : outerField ∉ k.params.map Param.name ∧ outerField ∉ declaredAll k.body := by
      unfold ClassDef.allConstructors at hk
      split at hk
      · rw [List.mem_singleton.1 hk]
        exact ⟨List.not_mem_nil, List.not_mem_nil⟩
      · exact h.constructors k hk
    exact hentered.constructor_sound hvalued hk (hconstructors k hk) hfields hnames.1 hnames.2 optimize
  · obtain ⟨m, hmem, rfl⟩ := List.mem_map.1 hm
    exact fun _ _ _ _ => hentered.method_sound hvalued hmem (hmethods m hmem) optimize

/-- What code was made of a method is sound as the method stands among the classes. With names as references this asks nothing
of the class. -/
theorem Registry.sound_of_compileMethod {ds : List ClassDef} {d : ClassDef} (hd : d ∈ ds) {b : Binding}
    (hchecked : b = .static → d.Checked ds) {entry : ClassEntry} (hentry : (host.resolve ds).1.get? d.name = some entry)
    {optimize : Bool} {m : LoweredMethod} (hm : m ∈ (d.lower optimize).methods) {mc : MethodCode} {p q : Pool}
    (hmade : compileMethod b (LoweredClass.context (host.resolve ds).1 entry m) m p = .ok mc q) :
    m.Sound b (LoweredClass.context (host.resolve ds).1 entry m) := by
  cases b with
  | static => exact (hchecked rfl).sound hd hentry hm p mc q hmade
  | dynamic => exact ⟨fun _ _ hb => (nomatch hb), fun hb => nomatch hb⟩

/-- The code that is made of a method keeps the discipline of the stack, in whatever pool its constants end up. With names as
references this asks nothing of the class. -/
theorem Registry.compileMethod_keepsStack {ds : List ClassDef} {d : ClassDef} (hd : d ∈ ds) (b : Binding)
    (hchecked : b = .static → d.Checked ds) {entry : ClassEntry} (hentry : (host.resolve ds).1.get? d.name = some entry)
    {optimize : Bool} {m : LoweredMethod} (hm : m ∈ (d.lower optimize).methods) (hbody : m.body ≠ .abstract)
    {mc : MethodCode} {p q r : Pool} (hr : r.WellFormed) (hlater : q.Later r)
    (hmade : compileMethod b (LoweredClass.context (host.resolve ds).1 entry m) m p = .ok mc q) :
    m.Orderly b (LoweredClass.context (host.resolve ds).1 entry m) mc r := by
  have hsound := sound_of_compileMethod hd hchecked hentry hm hmade
  exact compileMethod_orderly hsound (ClassDef.returns_of_mem_lower hm) hbody hmade hr hlater

/-- So for the members of an inner class, with its outer instance and the initial values of its fields. -/
theorem Registry.compileMethod_keepsStack_bee :
    Hive.bee ∈ Hive.classes ∧ Hive.bee.Checked Hive.classes ∧
      ∃ entry, (host.resolve Hive.classes).1.get? Hive.bee.name = some entry ∧
        ∀ m ∈ (Hive.bee.lower true).methods, m.body ≠ .abstract ∧ ∃ mc q,
          compileMethod .static (LoweredClass.context (host.resolve Hive.classes).1 entry m) m Pool.empty = .ok mc q ∧
            q.WellFormed ∧ q.Later q ∧
              m.Orderly .static (LoweredClass.context (host.resolve Hive.classes).1 entry m) mc q := by
  have hd : Hive.bee ∈ Hive.classes := List.mem_cons_self
  have hresolve : (host.resolve Hive.classes).1 = entries Hive.classes := congrArg Prod.fst Hive.resolve_eq
  have hresolved : ∀ x ∈ (host.resolve Hive.classes).2, x.cls ≠ Hive.bee.name.text := by
    rw [Hive.resolve_eq]
    exact fun x hx => nomatch hx
  have hbee : Hive.bee.check (host.resolve Hive.classes).1 = [] := by
    rw [hresolve]
    exact Hive.check_bee
  have hchecked : Hive.bee.Checked Hive.classes := ⟨hresolved, hbee, by decide, by decide⟩
  have hentry := (entered_resolve hd hresolved).get
  rw [(host_resolve Hive.names.1 Hive.names.2).1] at hentry
  have hmade : (Hive.bee.lower true).methods.all (fun m =>
      match m.body, compileMethod .static (LoweredClass.context (entries Hive.classes)
        (Hive.bee.entry (headers Hive.classes)) m) m Pool.empty with
      | .method _, .ok _ _ | .constructor _ _ _, .ok _ _ => true
      | _, _ => false) = true := by cbv
  refine ⟨hd, hchecked, _, hentry, fun m hm => ?_⟩
  have h := List.all_eq_true.1 hmade m hm
  rw [← hresolve] at h
  have hcode : m.body ≠ .abstract ∧ ∃ mc q, compileMethod .static (LoweredClass.context (host.resolve Hive.classes).1
      (Hive.bee.entry (headers Hive.classes)) m) m Pool.empty = .ok mc q := by
    split at h
    · rename_i hbody hmc
      exact ⟨by simp [hbody], _, _, hmc⟩
    · rename_i hbody hmc
      exact ⟨by simp [hbody], _, _, hmc⟩
    · cases h
  obtain ⟨hbody, mc, q, hmc⟩ := hcode
  have hq : q.WellFormed := (compileMethod_collects _ _ m _ _ _ hmc).grows.wellFormed Pool.wellFormed_empty
  exact ⟨hbody, mc, q, hmc, hq, .refl q,
    compileMethod_keepsStack hd .static (fun _ => hchecked) hentry hm hbody hq (.refl q) hmc⟩

/-! ## A field of type `void` -/

namespace Husk

def huskName : Name := .ofPath ["Husk"] (Eq.refl true)

def husk : ClassDef where
  name := huskName
  members := [.field ⟨"kernel", .void, .pub, none⟩]

/-- A method that reads the field of another class in a loop. -/
def grind : MethodDef where
  name := "grind"
  modifiers := .pub ||| .static
  params := [⟨"husk", .ref huskName⟩, ⟨"go", .boolean⟩]
  ret := .void
  body := some [.loop (.var "go") (.expr (.field (.var "husk") "kernel"))]

def mill : ClassDef where
  name := .ofPath ["Mill"] (Eq.refl true)
  members := [.method grind]

def classes : List ClassDef := [mill, husk]

/-- Nothing is found in the class with the loop. Still what each turn reads stays on the stack: it is taken for nothing. -/
example : Registry.host.resolve classes = (Registry.entries classes, [.ofMember .typeMismatch "Husk" "kernel"
      "'void' is not a value type"]) ∧
    mill.check (Registry.entries classes) = [] ∧
    (match compileMethod .static (LoweredClass.context (Registry.entries classes) (mill.entry (Registry.headers classes))
        (ClassDef.lowerMethod true grind)) (ClassDef.lowerMethod true grind) Pool.empty with
      | .ok mc _ => mc.code
      | .error _ _ => #[]) =
      (Block.one (.load 1) ++ .one (.jumpIfFalse 9) ++ .one (.load 0) ++ .one (.field .get 5) ++ .one (.loop 15) ++
        .one .retVoid).encode := by
  refine ⟨?_, ?_, ?_⟩
  · have hdeclarations : classes.flatMap (ClassDef.checkDeclarations (Registry.headers classes)) =
        [.ofMember .typeMismatch "Husk" "kernel" "'void' is not a value type"] := by cbv
    have hinherited : classes.flatMap (ClassDef.checkInherited (Registry.entries classes)) = [] := by decide +kernel
    rw [(Registry.host_resolve (by decide) (by decide)).2, hdeclarations, hinherited]
    rfl
  · cbv
  · cbv

end Husk

end ClassTree
