import ClassTree.Proofs.Compile.Renamed
import ClassTree.Proofs.Resolution.Generated

/-!
# Names of constructor parameters

`k.rename x y` is the constructor `k` with its parameter `x` called `y` instead. Neither the entries of the registry
(`Registry.resolve_congr`) nor a class file shows the names of parameters, so the class file of a class that was checked without
findings is the same under both names, and so are the findings if it has none (`Registry.generate_renamed`).

The exception is the name of the outer instance (`ClassDef.Captures`): beside the parameter that the constructors of an inner class
have for it no other can have its name, and field initialisers take the first parameter for it if that has its name.
-/

namespace ClassTree

/-! ## Lowered bodies -/

theorem Expr.varsAll_map_subset {f : Expr → Expr} (hf : ∀ e, (f e).vars ⊆ e.vars) (es : List Expr) :
    varsAll (es.map f) ⊆ varsAll es := by
  induction es with
  | nil => exact List.Subset.refl _
  | cons e es ih =>
    rw [List.map_cons, varsAll, varsAll]
    exact append_subset_append (hf e) ih

mutual

theorem Stmt.vars_mapExpr_subset {f : Expr → Expr} (hf : ∀ e, (f e).vars ⊆ e.vars) :
    ∀ x : Stmt, (x.mapExpr f).vars ⊆ x.vars
  | .block stmts => by
    rw [Stmt.mapExpr_block, Stmt.vars, Stmt.vars]
    exact Stmt.varsAll_mapExpr_subset hf stmts
  | .decl _ _ none => by
    rw [Stmt.mapExpr, Option.map_none, Stmt.vars]
    exact List.Subset.refl _
  | .decl _ _ (some e) => by
    rw [Stmt.mapExpr, Option.map_some, Stmt.vars, Stmt.vars]
    exact hf e
  | .expr e => by
    rw [Stmt.mapExpr, Stmt.vars, Stmt.vars]
    exact hf e
  | .ret none => by
    rw [Stmt.mapExpr, Option.map_none, Stmt.vars]
    exact List.Subset.refl _
  | .ret (some e) => by
    rw [Stmt.mapExpr, Option.map_some, Stmt.vars, Stmt.vars]
    exact hf e
  | .cond test t none => by
    rw [Stmt.mapExpr, Stmt.vars, Stmt.vars]
    exact append_subset_append (hf test) (Stmt.vars_mapExpr_subset hf t)
  | .cond test t (some e) => by
    rw [Stmt.mapExpr, Stmt.vars, Stmt.vars]
    exact append_subset_append (hf test) (append_subset_append (Stmt.vars_mapExpr_subset hf t) (Stmt.vars_mapExpr_subset hf e))
  | .loop test body => by
    rw [Stmt.mapExpr, Stmt.vars, Stmt.vars]
    exact append_subset_append (hf test) (Stmt.vars_mapExpr_subset hf body)
  | .superCall args => by
    rw [Stmt.mapExpr, Stmt.vars, Stmt.vars]
    exact Expr.varsAll_map_subset hf args

theorem Stmt.varsAll_mapExpr_subset {f : Expr → Expr} (hf : ∀ e, (f e).vars ⊆ e.vars) :
    ∀ xs : List Stmt, Stmt.varsAll (xs.map (Stmt.mapExpr f)) ⊆ Stmt.varsAll xs
  | [] => List.Subset.refl _
  | x :: rest => by
    rw [List.map_cons, Stmt.varsAll, Stmt.varsAll]
    exact append_subset_append (Stmt.vars_mapExpr_subset hf x) (Stmt.varsAll_mapExpr_subset hf rest)

end

mutual

theorem Stmt.mapExpr_mapExpr (f g : Expr → Expr) : ∀ x : Stmt, (x.mapExpr f).mapExpr g = x.mapExpr (g ∘ f)
  | .block stmts => by rw [Stmt.mapExpr_block, Stmt.mapExpr_block, Stmt.mapExpr_block, map_mapExpr_mapExpr]
  | .decl _ _ _ => by simp only [Stmt.mapExpr, Option.map_map]
  | .expr _ => by simp only [Stmt.mapExpr, Function.comp]
  | .ret _ => by simp only [Stmt.mapExpr, Option.map_map]
  | .cond _ t none => by simp only [Stmt.mapExpr, Function.comp, Stmt.mapExpr_mapExpr f g t]
  | .cond _ t (some e) => by simp only [Stmt.mapExpr, Function.comp, Stmt.mapExpr_mapExpr f g t, Stmt.mapExpr_mapExpr f g e]
  | .loop _ body => by simp only [Stmt.mapExpr, Function.comp, Stmt.mapExpr_mapExpr f g body]
  | .superCall _ => by simp only [Stmt.mapExpr, List.map_map]

theorem map_mapExpr_mapExpr (f g : Expr → Expr) : ∀ xs : List Stmt,
    (xs.map (Stmt.mapExpr f)).map (Stmt.mapExpr g) = xs.map (Stmt.mapExpr (g ∘ f))
  | [] => rfl
  | x :: rest => by
    rw [List.map_cons, List.map_cons, List.map_cons, Stmt.mapExpr_mapExpr, map_mapExpr_mapExpr]

end

theorem Expr.vars_optimized_subset (optimize : Bool) (e : Expr) : (e.optimized optimize).vars ⊆ e.vars := by
  cases optimize with
  | true => exact vars_fold_subset e
  | false => exact List.Subset.refl _

theorem Stmt.varsAll_append (xs ys : List Stmt) : varsAll (xs ++ ys) = varsAll xs ++ varsAll ys := by
  induction xs with
  | nil => rfl
  | cons x xs ih => rw [List.cons_append, varsAll, varsAll, ih, List.append_assoc]

theorem varsAll_lowerBody_subset (optimize : Bool) (body : List Stmt) :
    Stmt.varsAll (lowerBody optimize body) ⊆ Stmt.varsAll body := by
  rw [lowerBody_eq, Stmt.varsAll_append]
  refine List.append_subset.2 ⟨Stmt.varsAll_mapExpr_subset (Expr.vars_optimized_subset optimize) body, ?_⟩
  split <;> exact List.nil_subset _

/-- Names are changed before lowering or after it. -/
theorem lowerBody_rename (optimize : Bool) (f : String → String) (body : List Stmt) :
    lowerBody optimize (body.map (Stmt.mapExpr (Expr.rename f))) =
      (lowerBody optimize body).map (Stmt.mapExpr (Expr.rename f)) := by
  rw [lowerBody_eq, lowerBody_eq, anyReturns_mapExpr, List.map_append, map_mapExpr_mapExpr, map_mapExpr_mapExpr,
    Expr.optimized_comp_rename]
  split
  · rfl
  · simp only [List.map_cons, List.map_nil, Stmt.mapExpr, Option.map_none]

theorem splitSuperCall_mapExpr (f : Expr → Expr) (body : List Stmt) :
    splitSuperCall (body.map (Stmt.mapExpr f)) =
      ((splitSuperCall body).1.map f, (splitSuperCall body).2.map (Stmt.mapExpr f)) := by
  cases body with
  | nil => rfl
  | cons x rest =>
    cases x with
    | superCall args => simp only [List.map_cons, Stmt.mapExpr, splitSuperCall]
    | cond test t e => cases e <;> simp only [List.map_cons, Stmt.mapExpr, splitSuperCall, List.map_nil]
    | _ => simp only [List.map_cons, Stmt.mapExpr, splitSuperCall, List.map_nil]

theorem varsAll_splitSuperCall (body : List Stmt) :
    Stmt.varsAll body = Expr.varsAll (splitSuperCall body).1 ++ Stmt.varsAll (splitSuperCall body).2 := by
  unfold splitSuperCall
  split
  · rw [Stmt.varsAll, Stmt.vars]
  · rfl

/-! ## Constructors -/

namespace ConstructorDef

/-- Changes the name of a parameter, where it is declared and where it is used. -/
def rename (x y : String) (k : ConstructorDef) : ConstructorDef where
  modifiers := k.modifiers
  params := k.params.map (Param.rename (newName x y))
  body := Stmt.mapExprAll (Expr.rename (newName x y)) k.body

/-- The names that are declared or used in a constructor. -/
def names (k : ConstructorDef) : List String := k.params.map Param.name ++ Stmt.varsAll k.body ++ declaredAll k.body

end ConstructorDef

namespace ClassDef

/-- A parameter with the name of the outer instance is taken for it: by the constructor of an inner class, or by the field
initialisers, which see it if it comes first. -/
def Captures (d : ClassDef) (k : ConstructorDef) (x : String) : Prop :=
  x = outerField ∧ (d.isInner = true ∨
    (k.params.map Param.name).head? = some x ∧ ∃ f ∈ d.fields, ∃ e, f.init = some e ∧ x ∈ e.vars)

end ClassDef

/-! ## Field initialisers -/

/-- Expressions make the same code as statements where their names mean the same. -/
theorem compileStmts_agrees {c : Context} {s s' : Scope} {xs : List Stmt}
    (h : ∀ z ∈ xs, ∃ e, z = .expr e ∧ ∀ n ∈ e.vars, s.Agrees id s' n) (done : Block) :
    Gen.Alike (fun r r' => r'.1 = r.1) (compileStmts .static c xs s done) (compileStmts .static c xs s' done) := by
  induction xs generalizing done with
  | nil => exact .pure rfl
  | cons z xs ih =>
    obtain ⟨e, rfl, he⟩ := h z List.mem_cons_self
    have hdiscarded : compileDiscarded .static c s' e = compileDiscarded .static c s e := by
      have hrename := Typed.discarded_rename (c := c) he
      rwa [Expr.rename_id] at hrename
    have hstmt : Gen.Alike (fun r r' => r'.1 = r.1 ∧ r.2 = s ∧ r'.2 = s') (compileStmt .static c (.expr e) s)
        (compileStmt .static c (.expr e) s') := by
      rw [compileStmt, compileStmt, hdiscarded]
      exact .after fun _ => .pure ⟨rfl, rfl, rfl⟩
    rw [compileStmts, compileStmts]
    refine .bind hstmt fun r r' hr => ?_
    dsimp only
    rw [hr.1, hr.2.1, hr.2.2]
    exact ih (fun z hz => h z (List.mem_cons_of_mem _ hz)) _

/-- Of the parameters, field initialisers see the first alone, and only if it has the name of the outer instance. -/
theorem lookup?_initializerScope {p : Param} {params : List Param} {n : String} (h : p.name = outerField → n ≠ outerField) :
    (initializerScope (p :: params)).lookup? n = none := by
  have hnone : Scope.ofInstance.lookup? n = none := by simp [Scope.lookup?, Scope.ofInstance]
  rw [initializerScope]
  split
  · rename_i hp
    rw [Scope.lookup?_declare (ClassDef.ofInstance_declare p.name p.ty), hp, if_neg (Ne.symm (h hp)), hnone]
  · exact hnone

namespace ClassDef

variable {d : ClassDef} {k : ConstructorDef} {x y : String}

theorem not_mem_outerParams (hx : x = outerField → d.isInner = false) : x ∉ d.outerParams.map Param.name := by
  unfold outerParams outerClass?
  cases hinner : d.isInner with
  | false => exact List.not_mem_nil
  | true =>
    intro hmem
    obtain ⟨p, hp, rfl⟩ := List.mem_map.1 hmem
    obtain ⟨n, -, rfl⟩ := List.mem_map.1 hp
    have hnot := hx rfl
    rw [hinner] at hnot
    cases hnot

/-- The names of parameters are changed before lowering or after it. -/
theorem lowerConstructor_rename (optimize : Bool) (hx : x = outerField → d.isInner = false) :
    d.lowerConstructor optimize (k.rename x y) = (d.lowerConstructor optimize k).rename (newName x y) := by
  rw [lowerConstructor_eq, lowerConstructor_eq, LoweredMethod.rename, LoweredBody.rename, List.map_append,
    Param.map_rename_of_not_mem (not_mem_outerParams hx), ConstructorDef.rename]
  simp only [Stmt.mapExprAll_eq, splitSuperCall_mapExpr, lowerBody_rename, List.map_map, Expr.optimized_comp_rename,
    Expr.renameAll_eq_map]

/-- The initialisers of a class without outer instance store initial values, which are folded or not. -/
theorem mem_initializers (houter : d.outerClass? = none) {optimize : Bool} {z : Stmt} (hz : z ∈ d.initializers optimize) :
    ∃ f ∈ d.fields, ∃ e, f.init = some e ∧ z = storeField f.name (e.optimized optimize) := by
  rw [initializers, houter] at hz
  obtain ⟨f, hf, hz⟩ := List.mem_filterMap.1 hz
  obtain ⟨e, he, rfl⟩ := Option.map_eq_some_iff.1 hz
  exact ⟨f, hf, e, he, rfl⟩

theorem not_inner_of_not_captures (h : ¬ d.Captures k x) (hx : x = outerField) : d.isInner = false :=
  Bool.eq_false_iff.2 fun hinner => h ⟨hx, .inl hinner⟩

/-- A first parameter that is not captured is no variable that an initial value uses. -/
theorem ne_outerField_of_not_captures (h : ¬ d.Captures k x) {p : Param} {params : List Param} (hk : k.params = p :: params)
    (hp : p.name = x) {f : FieldDef} (hf : f ∈ d.fields) {e : Expr} (he : f.init = some e) {n : String} (hn : n ∈ e.vars) :
    p.name = outerField → n ≠ outerField := by
  rintro hname rfl
  have hhead : (k.params.map Param.name).head? = some x := by
    rw [hk, ← hp]
    rfl
  exact h ⟨hp ▸ hname, .inr ⟨hhead, f, hf, e, he, by rwa [← hp, hname]⟩⟩

/-- Where neither name is captured, field initialisers make the same code beside both. -/
theorem initializers_alike {c : Context} (hx : ¬ d.Captures k x) (hy : ¬ d.Captures (k.rename x y) y) (optimize : Bool) :
    Gen.Alike (fun r r' => r'.1 = r.1)
      (compileStmts .static c (d.initializers optimize) (initializerScope (d.outerParams ++ k.params)) .empty)
      (compileStmts .static c (d.initializers optimize)
        (initializerScope ((d.outerParams ++ k.params).map (Param.rename (newName x y)))) .empty) := by
  have hsame : ∀ {ps ps' : List Param}, initializerScope ps' = initializerScope ps → Gen.Alike (fun r r' => r'.1 = r.1)
      (compileStmts .static c (d.initializers optimize) (initializerScope ps) .empty)
      (compileStmts .static c (d.initializers optimize) (initializerScope ps') .empty) := by
    intro ps ps' hscope
    rw [hscope]
    exact (Gen.Alike.refl _).mono fun h => by rw [h]
  rw [List.map_append, Param.map_rename_of_not_mem (not_mem_outerParams (not_inner_of_not_captures hx))]
  cases houter : d.outerClass? with
  | some n =>
    -- The outer instance comes first, whatever the declared parameters are called.
    have hparams : d.outerParams = [⟨outerField, .ref n⟩] := by
      rw [outerParams, houter]
      rfl
    rw [hparams]
    exact hsame rfl
  | none =>
    have hparams : d.outerParams = [] := by
      rw [outerParams, houter]
      rfl
    rw [hparams, List.nil_append, List.nil_append]
    cases hk : k.params with
    | nil => exact hsame rfl
    | cons p params =>
      rw [List.map_cons]
      by_cases hp : p.name = x
      · have hk' : (k.rename x y).params = p.rename (newName x y) :: params.map (Param.rename (newName x y)) := by
          rw [ConstructorDef.rename, hk, List.map_cons]
        have hp' : (p.rename (newName x y)).name = y := if_pos hp
        refine compileStmts_agrees (fun z hz => ?_) _
        obtain ⟨f, hf, e, he, rfl⟩ := mem_initializers houter hz
        refine ⟨_, rfl, fun n hn => ?_⟩
        have hn := Expr.vars_optimized_subset optimize e hn
        exact .field (lookup?_initializerScope (ne_outerField_of_not_captures hx hk hp hf he hn))
          (lookup?_initializerScope (ne_outerField_of_not_captures hy hk' hp' hf he hn)) rfl
      · rw [Param.rename_of_ne hp]
        exact hsame rfl

end ClassDef

/-! ## Class files -/

namespace LoweredClass

variable {b : Binding} {r : Registry} {entry : ClassEntry}

theorem methodInfo_congr {m m' : LoweredMethod} (hname : m'.name = m.name) (hmodifiers : m'.modifiers = m.modifiers)
    (hsignature : m'.signature = m.signature)
    (hcode : compileMethod b (context r entry m) m' = compileMethod b (context r entry m) m) :
    methodInfo b r entry m' = methodInfo b r entry m := by
  have hret : m'.ret = m.ret := congrArg Signature.ret hsignature
  have hcontext : context r entry m' = context r entry m := by rw [context, context, hname, hmodifiers, hret]
  rw [methodInfo, methodInfo, hcontext, hcode, hname, hmodifiers, LoweredMethod.descriptor, LoweredMethod.descriptor, hsignature]

theorem methodTable_congr {ms ms' : List LoweredMethod}
    (h : List.Forall₂ (fun m m' => methodInfo b r entry m' = methodInfo b r entry m) ms ms') :
    ∀ done found p, methodTable b r entry ms' done found p = methodTable b r entry ms done found p := by
  induction h with
  | nil => exact fun _ _ _ => rfl
  | @cons m m' _ _ hm _ ih =>
    intro done found p
    rw [methodTable, methodTable, hm]
    cases methodInfo b r entry m p with
    | ok info q => exact ih _ _ _
    | error d q => exact ih _ _ _

/-- Classes whose methods are made alike have the same class file, or the same is found in them. -/
theorem generate_congr {l : LoweredClass} {ms : List LoweredMethod}
    (h : ∀ entry, r.get? l.name = some entry →
      List.Forall₂ (fun m m' => methodInfo b r entry m' = methodInfo b r entry m) l.methods ms) :
    ({ l with methods := ms } : LoweredClass).generate b r = l.generate b r := by
  unfold generate
  dsimp only
  cases hget : r.get? l.name with
  | none => rfl
  | some entry =>
    have hnesting : ({ l with methods := ms } : LoweredClass).ownNesting = l.ownNesting := rfl
    have hassemble : ({ l with methods := ms } : LoweredClass).assemble b r entry = l.assemble b r entry := by
      simp only [assemble, hnesting, methodTable_congr (h entry hget)]
    dsimp only
    rw [hassemble]

end LoweredClass

/-! ## The registry -/

namespace Registry

variable {ds ds' : List ClassDef}

theorem declareAll_congr (h : List.Forall₂ (fun d d' => d'.header = d.header) ds ds') (r : Registry) :
    (r.declareAll ds').1 = (r.declareAll ds).1 := by
  induction h generalizing r with
  | nil => rfl
  | @cons d d' _ _ hd _ ih =>
    have hname : d'.name = d.name := congrArg ClassEntry.name hd
    have hstep : (d'.declare r).1 = (d.declare r).1 := by
      rw [declare_eq, declare_eq, hd, hname]
      split <;> rfl
    rw [declareAll_cons, declareAll_cons, hstep]
    exact ih _

theorem foldl_enterMembers_congr {declared : Registry} (h : List.Forall₂ (fun d d' => d'.entry declared = d.entry declared) ds ds')
    (r : Registry) : ds'.foldl (fun r d => d.enterMembers declared r) r = ds.foldl (fun r d => d.enterMembers declared r) r := by
  have henter : ∀ (d : ClassDef) (r : Registry), d.enterMembers declared r = r.update (d.entry declared).name fun e =>
      { e with
        fields := (d.entry declared).fields
        methods := (d.entry declared).methods
        constructors := (d.entry declared).constructors } := fun _ _ => rfl
  induction h generalizing r with
  | nil => rfl
  | @cons d d' _ _ hd _ ih =>
    rw [List.foldl_cons, List.foldl_cons, henter d', henter d, hd]
    exact ih _

/-- What is registered depends on classes only through their entries. -/
theorem resolve_congr (h : List.Forall₂ (fun d d' => ∀ declared, d'.entry declared = d.entry declared) ds ds')
    (r : Registry) : (r.resolve ds').1 = (r.resolve ds).1 := by
  have hheaders : List.Forall₂ (fun d d' => d'.header = d.header) ds ds' :=
    h.imp fun _ _ hd => congrArg (fun e : ClassEntry => { e with fields := [], methods := [], constructors := [] }) (hd r)
  rw [resolve, resolve]
  dsimp only
  rw [declareAll_congr hheaders, foldl_enterMembers_congr (h.imp fun _ _ hd => hd _)]

end Registry

/-! ## Classes -/

namespace ClassDef

variable {d : ClassDef} {before after : List Member} {k : ConstructorDef}

theorem allConstructors_eq {ks ks' : List ConstructorDef} (h : d.constructors = ks ++ k :: ks') :
    d.allConstructors = ks ++ k :: ks' := by
  rw [allConstructors, h]
  cases ks <;> rfl

/-- The class with another constructor in the place of `k`. -/
def withConstructor (d : ClassDef) (before : List Member) (k : ConstructorDef) (after : List Member) : ClassDef :=
  { d with members := before ++ .ctor k :: after }

variable (hd : d.members = before ++ .ctor k :: after) (k' : ConstructorDef)

include hd

theorem fields_withConstructor : (d.withConstructor before k' after).fields = d.fields := by
  simp [fields, withConstructor, hd]

theorem methods_withConstructor : (d.withConstructor before k' after).methods = d.methods := by
  simp [methods, withConstructor, hd]

theorem constructors_withConstructor : ∃ ks ks', d.constructors = ks ++ k :: ks' ∧
    ∀ k', (d.withConstructor before k' after).constructors = ks ++ k' :: ks' := by
  refine ⟨{ d with members := before }.constructors, { d with members := after }.constructors, ?_, fun k' => ?_⟩
  · simp [constructors, hd]
  · simp [constructors, withConstructor]

theorem entry_withConstructor {k' : ConstructorDef} (h : d.constructorEntry k' = d.constructorEntry k) (declared : Registry) :
    (d.withConstructor before k' after).entry declared = d.entry declared := by
  obtain ⟨ks, ks', hold, hnew⟩ := constructors_withConstructor hd
  have hfields : (d.withConstructor before k' after).gatherFields declared = d.gatherFields declared := by
    rw [gatherFields, fields_withConstructor hd]
    rfl
  have hmethods : (d.withConstructor before k' after).gatherMethods declared = d.gatherMethods declared := by
    rw [gatherMethods, methods_withConstructor hd]
    rfl
  have hconstructors : ((d.withConstructor before k' after).gatherConstructors declared).entries =
      (d.gatherConstructors declared).entries := by
    refine entries_gatherConstructors_congr rfl ?_
    rw [hold, hnew]
    have hrefl : ∀ ks : List ConstructorDef,
        List.Forall₂ (fun k k' => (d.withConstructor before k' after).constructorEntry k' = d.constructorEntry k) ks ks :=
      fun ks => List.forall₂_same.2 fun _ _ => rfl
    exact List.rel_append (hrefl ks) (.cons h (hrefl ks'))
  rw [entry, entry, hfields, hmethods, hconstructors]
  rfl

theorem lower_withConstructor (optimize : Bool) :
    ∃ ls ls', (d.lower optimize).methods = ls ++ d.lowerConstructor optimize k :: ls' ∧
      ∀ k', (d.withConstructor before k' after).lower optimize =
        { d.lower optimize with methods := ls ++ d.lowerConstructor optimize k' :: ls' } := by
  obtain ⟨ks, ks', hold, hnew⟩ := constructors_withConstructor hd
  refine ⟨ks.map (d.lowerConstructor optimize), ks'.map (d.lowerConstructor optimize) ++ d.methods.map (lowerMethod optimize),
    ?_, fun k' => ?_⟩
  · rw [lower, allConstructors_eq hold]
    simp
  · have hlower : (d.withConstructor before k' after).lowerConstructor optimize = d.lowerConstructor optimize := by
      funext k''
      rw [lowerConstructor_eq, lowerConstructor_eq, initializers, initializers, fields_withConstructor hd]
      rfl
    rw [lower, allConstructors_eq (hnew k'), hlower, fields_withConstructor hd, methods_withConstructor hd, lower]
    simp [withConstructor, outerClass?, isInner, isStatic]

end ClassDef

/-! ## Two names of a parameter -/

theorem LoweredMethod.signature_rename (f : String → String) (m : LoweredMethod) : (m.rename f).signature = m.signature := by
  rw [signature, signature, rename, List.map_map]
  rfl

/-- In a constructor that was checked, no two parameters have the same name, and no variable has the name of a parameter. -/
theorem ClassDef.names_of_checkConstructor {r : Registry} {entry : ClassEntry} {k : ConstructorDef}
    (hcheck : checkConstructor r entry k = []) :
    (k.params.map Param.name).Nodup ∧ ∀ x ∈ k.params.map Param.name, x ∉ declaredAll (splitSuperCall k.body).2 := by
  obtain ⟨hdeclares, -, hw⟩ := checkConstructor_eq_nil.1 hcheck
  obtain ⟨ls, hls, hnames⟩ := Scope.shows_ofInstance.afterParams hdeclares
  rw [List.map_nil, List.append_nil] at hnames
  have hnodup := hls.names
  rw [hnames] at hnodup
  refine ⟨List.nodup_reverse.1 hnodup, fun x hx => ?_⟩
  have hnot := hw.not_mem_declared hls (hnames ▸ List.mem_reverse.2 hx)
  rwa [Stmt.declared] at hnot

/-- A constructor that was checked is made alike under two names of a parameter, if neither is captured. -/
theorem ClassDef.methodInfo_rename {r : Registry} {entry : ClassEntry} {d : ClassDef} {k : ConstructorDef} {x y : String}
    (hcheck : checkConstructor r entry k = []) (hx : x ∈ k.params.map Param.name) (hy : y ∉ k.names) (hxc : ¬ d.Captures k x)
    (hyc : ¬ d.Captures (k.rename x y) y) (optimize : Bool) :
    LoweredClass.methodInfo .static r entry (d.lowerConstructor optimize (k.rename x y)) =
      LoweredClass.methodInfo .static r entry (d.lowerConstructor optimize k) := by
  obtain ⟨hnodup, hdeclared⟩ := names_of_checkConstructor hcheck
  rw [ConstructorDef.names, List.mem_append, List.mem_append, not_or, not_or, varsAll_splitSuperCall, List.mem_append,
    not_or] at hy
  obtain ⟨⟨hyparams, hyargs, hyvars⟩, hybody⟩ := hy
  have hxouter : x ∉ d.outerParams.map Param.name := not_mem_outerParams (not_inner_of_not_captures hxc)
  have hyouter : y ∉ d.outerParams.map Param.name := not_mem_outerParams (not_inner_of_not_captures hyc)
  rw [lowerConstructor_rename optimize (not_inner_of_not_captures hxc)]
  refine LoweredClass.methodInfo_congr rfl rfl (LoweredMethod.signature_rename _ _) ?_
  rw [lowerConstructor_eq]
  refine compileMethod_rename ?_ ?_ ?_ ?_ ?_ ?_
  · rw [List.map_append, List.count_append, List.count_eq_zero.2 hxouter, List.count_eq_one_of_mem hnodup hx]
  · rw [List.map_append, List.mem_append, not_or]
    exact ⟨hyouter, hyparams⟩
  · rw [LoweredBody.vars, List.mem_append, not_or]
    exact ⟨fun hmem => hyargs (Expr.varsAll_map_subset (Expr.vars_optimized_subset optimize) _ hmem),
      fun hmem => hyvars (varsAll_lowerBody_subset optimize _ hmem)⟩
  · rw [LoweredBody.declared, declaredAll_lowerBody]
    exact hdeclared x hx
  · rw [LoweredBody.declared, declaredAll_lowerBody]
    exact fun hmem => hybody (declaredAll_splitSuperCall hmem)
  · intro _ _ _ hbody
    cases hbody
    exact initializers_alike hxc hyc optimize

namespace Registry

/-- In a class that was checked without findings the name of a constructor's parameter does not matter: with a name that occurs
nowhere in the constructor instead, the class file is the same, or the same is found when it is made. The two names must only not
be captured, which a name other than that of the outer instance never is. -/
theorem generate_renamed (r : Registry) (front back : List ClassDef) {d : ClassDef} {before after : List Member}
    {k : ConstructorDef} {x y : String} (hd : d.members = before ++ .ctor k :: after) (hx : x ∈ k.params.map Param.name)
    (hy : y ∉ k.names) (hxc : ¬ d.Captures k x) (hyc : ¬ d.Captures (k.rename x y) y)
    (hchecked : d.check (r.resolve (front ++ d :: back)).1 = []) (optimize : Bool) :
    let d' := d.withConstructor before (k.rename x y) after
    (d'.lower optimize).generate .static (r.resolve (front ++ d' :: back)).1 =
      (d.lower optimize).generate .static (r.resolve (front ++ d :: back)).1 := by
  intro d'
  have hentry : d.constructorEntry (k.rename x y) = d.constructorEntry k := by
    rw [ClassDef.constructorEntry, ClassDef.constructorEntry, ConstructorDef.rename, List.map_map]
    rfl
  have hresolved : (r.resolve (front ++ d' :: back)).1 = (r.resolve (front ++ d :: back)).1 := by
    have hrefl : ∀ ds : List ClassDef, List.Forall₂ (fun d d' => ∀ declared, d'.entry declared = d.entry declared) ds ds :=
      fun ds => List.forall₂_same.2 fun _ _ _ => rfl
    exact resolve_congr (List.rel_append (hrefl front) (.cons (ClassDef.entry_withConstructor hd hentry) (hrefl back))) r
  obtain ⟨ls, ls', hmethods, hlower⟩ := ClassDef.lower_withConstructor hd optimize
  obtain ⟨ks, ks', hconstructors, -⟩ := ClassDef.constructors_withConstructor hd
  rw [hresolved, hlower (k.rename x y)]
  refine LoweredClass.generate_congr fun entry hget => ?_
  have hcheck : ClassDef.checkConstructor (r.resolve (front ++ d :: back)).1 entry k = [] := by
    rw [ClassDef.check, show (r.resolve (front ++ d :: back)).1.get? d.name = some entry from hget] at hchecked
    simp only [List.append_eq_nil_iff, List.flatMap_eq_nil_iff] at hchecked
    refine hchecked.2 k ?_
    rw [ClassDef.allConstructors_eq hconstructors]
    exact List.mem_append_right _ List.mem_cons_self
  rw [hmethods]
  have hrefl : ∀ ls : List LoweredMethod, List.Forall₂ (fun m m' =>
      LoweredClass.methodInfo .static (r.resolve (front ++ d :: back)).1 entry m' =
        LoweredClass.methodInfo .static (r.resolve (front ++ d :: back)).1 entry m) ls ls :=
    fun ls => List.forall₂_same.2 fun _ _ => rfl
  exact List.rel_append (hrefl ls) (.cons (ClassDef.methodInfo_rename hcheck hx hy hxc hyc optimize) (hrefl ls'))

end Registry

/-! ## An example -/

namespace Hive

/-- The constructor of the inner class `Bee`. -/
def beeConstructor : ConstructorDef :=
  ⟨.pub, [⟨"k", .int⟩], [.superCall [], .expr (.assign (.field .outer "honey") (.var "k"))]⟩

/-- The class `Bee` with another name for the parameter of its constructor. -/
def beeWith (y : String) : ClassDef :=
  bee.withConstructor (bee.members.take 2) (beeConstructor.rename "k" y) (bee.members.drop 3)

/-- The name of the outer instance is captured. -/
example : (beeWith outerField).check (Registry.entries [beeWith outerField, hive, gate]) = [] ∧
    ((beeWith outerField).lower false).generate .static (Registry.entries [beeWith outerField, hive, gate]) =
      .error [.ofMember .duplicateVariable "Hive$Bee" "<init>" "variable 'this$0' is already declared"] :=
  ⟨by cbv, by cbv⟩

end Hive

theorem Registry.generate_renamed_bee :
    Hive.bee.members = Hive.bee.members.take 2 ++ .ctor Hive.beeConstructor :: Hive.bee.members.drop 3 ∧
      "k" ∈ Hive.beeConstructor.params.map Param.name ∧ "q" ∉ Hive.beeConstructor.names ∧
      ¬ Hive.bee.Captures Hive.beeConstructor "k" ∧ ¬ Hive.bee.Captures (Hive.beeConstructor.rename "k" "q") "q" ∧
      Hive.bee.check (host.resolve [Hive.bee, Hive.hive, Hive.gate]).1 = [] ∧
      ((Hive.beeWith "q").lower true).generate .static (host.resolve [Hive.beeWith "q", Hive.hive, Hive.gate]).1 =
        (Hive.bee.lower true).generate .static (host.resolve [Hive.bee, Hive.hive, Hive.gate]).1 := by
  have hx : "k" ∈ Hive.beeConstructor.params.map Param.name := by decide
  have hy : "q" ∉ Hive.beeConstructor.names := by decide
  have hxc : ¬ Hive.bee.Captures Hive.beeConstructor "k" := fun h => absurd h.1 (by decide)
  have hyc : ¬ Hive.bee.Captures (Hive.beeConstructor.rename "k" "q") "q" := fun h => absurd h.1 (by decide)
  have hchecked : Hive.bee.check (host.resolve [Hive.bee, Hive.hive, Hive.gate]).1 = [] := by
    have hresolve : host.resolve [Hive.bee, Hive.hive, Hive.gate] = (entries Hive.classes, []) := Hive.resolve_eq
    rw [hresolve]
    exact Hive.check_bee
  exact ⟨rfl, hx, hy, hxc, hyc, hchecked, generate_renamed host [] [Hive.hive, Hive.gate] rfl hx hy hxc hyc hchecked true⟩

end ClassTree
