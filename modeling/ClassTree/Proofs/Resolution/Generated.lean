import Mathlib
import ClassTree.Proofs.Resolution.Entered

/-!
# Class files of checked classes

What the check of bodies looks at and what code is made of are not the same: bodies are folded, an inner class's constructors
have one more parameter, and field initialisers become a part of each constructor. The members of a class that was entered and
checked without findings make code all the same (`Registry.Entered.method_settles`, `Registry.Entered.constructor_settles`), so
the class file of such a class is made unless a limit prevents it (`Registry.generates_checked`). The one thing that is found
only then is a method without a body that repeats the name of a parameter: its parameters are not looked at before.
-/

namespace ClassTree

open Gen

namespace ClassDef

/-- The parameters that a constructor has besides those that it declares. -/
def outerParams (d : ClassDef) : List Param := d.outerClass?.toList.map fun n => ⟨outerField, .ref n⟩

/-- The variables that they become. -/
def outerLocals (d : ClassDef) : List Local := d.outerClass?.toList.map fun n => ⟨outerField, .ref n, 1, 0⟩

/-- The scope of field initialisers. -/
def outerScope (d : ClassDef) : Scope := afterParams d.outerParams .ofInstance

/-- The finding that a method without a body repeats the name of a parameter. -/
def RepeatsParam (d : ClassDef) (x : Diagnostic) : Prop :=
  ∃ m ∈ d.methods, m.body = none ∧ ∃ name, (m.params.map Param.name).Duplicate name ∧
    x = .ofMember .duplicateVariable d.name.text m.name s!"variable '{name}' is already declared"

variable {d : ClassDef}

/-- The parts of a constructor that is ready for code generation. -/
theorem lowerConstructor_eq (optimize : Bool) (d : ClassDef) (k : ConstructorDef) :
    d.lowerConstructor optimize k = ⟨constructorName, k.modifiers, d.outerParams ++ k.params, .void,
      .constructor ((splitSuperCall k.body).1.map (Expr.optimized optimize)) (d.initializers optimize)
        (lowerBody optimize (splitSuperCall k.body).2)⟩ := rfl

theorem ofInstance_declare (x : String) (ty : Ty) :
    Scope.ofInstance.declare x ty = (.ok 1, (Scope.ofInstance.declare x ty).2) := by
  refine Prod.ext ?_ rfl
  rw [Scope.declare_fst]
  simp [Scope.lookup?, Scope.ofInstance, Scope.slotLimit]

theorem extends_outerScope : Scope.ofInstance.Extends d.outerLocals d.outerScope := by
  unfold outerLocals outerScope outerParams
  cases d.outerClass? with
  | none => exact .refl _
  | some n =>
    have hnone : ∀ x, Scope.ofInstance.lookup? x = none := fun x => by simp [Scope.lookup?, Scope.ofInstance]
    have hdeclare := ofInstance_declare outerField (.ref n)
    refine ⟨?_, fun x => ?_, by simp, fun v _ => hnone v.name⟩
    · have hdepth := congrArg Scope.depth (Scope.declare_eq_ok hdeclare).2.2
      exact hdepth
    · change ((Scope.ofInstance.declare outerField (.ref n)).2.lookup? x).map Local.view = _
      rw [Scope.lookup?_declare hdeclare, hnone, Option.none_or]
      by_cases hx : outerField = x
      · simp [hx, Scope.ofInstance]
      · simp [hx]

theorem declareParams_outer {E : Diagnostic → Prop} (c : Context) :
    Settles E (declareParams c d.outerParams .ofInstance) fun s => s = d.outerScope := by
  unfold outerScope outerParams
  cases d.outerClass? with
  | none => exact .pure rfl
  | some n =>
    have hvar : Settles E (declareVar c .ofInstance outerField (.ref n)) fun r =>
        r.2 = (Scope.ofInstance.declare outerField (.ref n)).2 := by
      rw [declareVar, ofInstance_declare]
      exact .pure rfl
    apply Settles.bind hvar
    intro r hr
    exact .pure hr

theorem not_mem_outerLocals {x : String} (hx : x ≠ outerField) : x ∉ d.outerLocals.map Local.name := by
  intro hmem
  obtain ⟨v, hv, rfl⟩ := List.mem_map.1 hmem
  obtain ⟨n, -, rfl⟩ := List.mem_map.1 hv
  exact hx rfl

/-- The parameters of a constructor are declared beside the outer instance, unless a limit is met. -/
theorem declareParams_constructor (c : Context) {params : List Param} (hparams : outerField ∉ params.map Param.name)
    (hdeclares : Scope.ofInstance.DeclaresAll params) :
    Settles Diagnostic.IsLimit (declareParams c (d.outerParams ++ params) .ofInstance) fun s =>
      (afterParams params .ofInstance).Extends d.outerLocals s := by
  rw [declareParams_append]
  apply Settles.bind (declareParams_outer c)
  rintro s rfl
  refine declareParams_settles extends_outerScope (fun p hp => not_mem_outerLocals fun heq => hparams ?_) hdeclares
  exact heq ▸ List.mem_map_of_mem hp

theorem initializerScope_outer {params : List Param} (h : outerField ∉ params.map Param.name) :
    initializerScope (d.outerParams ++ params) = d.outerScope := by
  unfold outerScope outerParams
  cases d.outerClass? with
  | some n => rfl
  | none =>
    cases params with
    | nil => rfl
    | cons p params =>
      have hname : p.name ≠ outerField := fun heq => h (by simp [heq])
      exact if_neg hname

theorem declaredAll_splitSuperCall {body : List Stmt} {x : String} (h : x ∈ declaredAll (splitSuperCall body).2) :
    x ∈ declaredAll body := by
  unfold splitSuperCall at h
  split at h
  · rw [declaredAll]
    exact List.mem_append_right _ h
  · exact h

end ClassDef

theorem Context.typeOf_storeField {c : Context} {s : Scope} {name : String} {f : FieldEntry} {e : ClassEntry} {value : Expr}
    (hstatic : c.isStatic = false) (hget : c.registry.get? c.cls.name = some e)
    (hf : c.registry.findField? c.cls.name name = some f) (hvalue : c.Accepts s value f.ty) :
    c.typeOf s (.assign (.field .this name) value) = .ok f.ty := by
  obtain ⟨t, ht, hassignable⟩ := hvalue
  have hthis : c.typeOf s .this = .ok c.thisType := by
    rw [typeOf, requireInstance, hstatic]
    rfl
  have hfield : c.field c.thisType name = .ok f := by
    have hclass : c.receiverClass c.thisType name = .ok e := classEntry_eq_ok.2 hget
    have hname : e.name = c.cls.name := (Registry.get?_eq_some hget).2
    rw [field]
    refine bind_eq_ok.2 ⟨e, hclass, ?_⟩
    rw [hname, hf]
    rfl
  have htarget : c.typeOf s (.field .this name) = .ok f.ty := by
    rw [typeOf]
    exact bind_eq_ok.2 ⟨_, hthis, bind_eq_ok.2 ⟨f, hfield, rfl⟩⟩
  have hvalue : c.expectAssignable t f.ty = .ok () := Check.expectAssignable_eq_ok.2 hassignable
  rw [typeOf]
  exact bind_eq_ok.2 ⟨(), rfl, bind_eq_ok.2 ⟨_, htarget, bind_eq_ok.2 ⟨t, ht, bind_eq_ok.2 ⟨(), hvalue, rfl⟩⟩⟩⟩

namespace Registry

theorem isAssignable_ref (r : Registry) (n : Name) : r.isAssignable (.ref n) (.ref n) = true := by
  simp [isAssignable, conversionCost, Ty.isVoid]

namespace Entered

variable {r declared : Registry} {d : ClassDef}

/-- The variable that an inner class's constructors have besides is no other than the field that it hides. -/
theorem keepsNames (h : r.Entered declared d) (c : Context) (hr : c.registry = r) (hcls : c.cls = d.entry declared)
    (member : String) {s s' : Scope} (hs : s.Extends d.outerLocals s') : c.KeepsNames member s s' := by
  refine Context.keepsNames_of_extends hs fun v hv f hf => ?_
  obtain ⟨outer, houter, rfl⟩ := List.mem_map.1 hv
  rw [hr, hcls, show (d.entry declared).name = d.name from rfl, h.findField?_outer (by simpa using houter)] at hf
  cases hf
  rfl

/-- A method that was checked makes code, and one without a body makes none. -/
theorem method_settles (h : r.Entered declared d) {m : MethodDef} (hm : m ∈ d.methods)
    (hcheck : ClassDef.checkMethod r (d.entry declared) m = []) (optimize : Bool) :
    let l := ClassDef.lowerMethod optimize m
    Settles (fun x => x.IsLimit ∨ d.RepeatsParam x)
      (compileMethod .static (LoweredClass.context r (d.entry declared) l) l) fun _ => True := by
  dsimp only
  cases hbody : m.body with
  | some body =>
    obtain ⟨hparams, hw, hreturns⟩ := (ClassDef.checkMethod_eq_nil hbody).1 hcheck
    have hl : ClassDef.lowerMethod optimize m =
        ⟨m.name, m.modifiers, m.params, m.ret, .method (lowerBody optimize body)⟩ := by
      rw [ClassDef.lowerMethod, hbody]
    rw [hl]
    refine Settles.mono (compileMethod_settles_method (c := .ofMethod r (d.entry declared) m) rfl hparams hw hreturns
      (h.callsSuper_method hm hbody)) (fun _ hlimit => .inl hlimit) fun _ h => h
  | none =>
    have hl : ClassDef.lowerMethod optimize m = ⟨m.name, m.modifiers ||| .abstract, m.params, m.ret, .abstract⟩ := by
      rw [ClassDef.lowerMethod, hbody]
    rw [hl]
    refine (compileMethod_settles_abstract rfl).mono (fun x hx => ?_) fun _ h => h
    rcases hx with hlimit | ⟨name, rfl, hdup⟩
    · exact .inl hlimit
    · exact .inr ⟨m, hm, hbody, name, hdup, rfl⟩

/-- Where the fields were checked, each initial value can be stored. -/
theorem typeOf_initializers (h : r.Entered declared d)
    (hfields : ∀ f ∈ d.fields, ClassDef.checkField r (d.entry declared) f = []) (optimize : Bool) :
    ∀ x ∈ d.initializers optimize, ∃ e t, x = .expr e ∧
      (Context.ofConstructor r (d.entry declared)).typeOf d.outerScope e = .ok t := by
  intro x hx
  have hstore : ∀ {name : String} {f : FieldEntry} {value : Expr}, r.findField? d.name name = some f →
      (Context.ofConstructor r (d.entry declared)).Accepts d.outerScope value f.ty →
      (Context.ofConstructor r (d.entry declared)).typeOf d.outerScope (.assign (.field .this name) value) = .ok f.ty :=
    fun hf hvalue => Context.typeOf_storeField rfl h.get hf hvalue
  rcases List.mem_append.1 hx with hx | hx
  · cases houter : d.outerClass? with
    | none => simp [houter] at hx
    | some outer =>
      rw [houter] at hx
      obtain rfl := List.mem_singleton.1 hx
      refine ⟨_, _, rfl, hstore (h.findField?_outer houter) ⟨.ref outer, ?_, r.isAssignable_ref outer⟩⟩
      have hlookup : d.outerScope.lookup? outerField = some ⟨outerField, .ref outer, 1, 0⟩ := by
        rw [ClassDef.outerScope, ClassDef.outerParams, houter]
        change (Scope.ofInstance.declare outerField (.ref outer)).2.lookup? outerField = _
        rw [Scope.lookup?_declare (ClassDef.ofInstance_declare outerField (.ref outer)), if_pos rfl]
        rfl
      exact Context.typeOf_var_of_lookup? hlookup
  · obtain ⟨f, hf, hx⟩ := List.mem_filterMap.1 hx
    obtain ⟨e, he, rfl⟩ := Option.map_eq_some_iff.1 hx
    obtain ⟨t, ht, hassignable⟩ := (ClassDef.checkField_eq_nil he).1 (hfields f hf)
    have hnames := h.keepsNames (.ofField r (d.entry declared) f) rfl rfl constructorName ClassDef.extends_outerScope
    exact ⟨_, _, rfl, hstore (h.findField?_of_mem hf)
      ⟨t, Context.typeOf_optimized (Context.typeOf_extends hnames ht), hassignable⟩⟩

/-- A constructor that was checked makes code, together with the field initialisers. -/
theorem constructor_settles (h : r.Entered declared d) {k : ConstructorDef} (hk : k ∈ d.allConstructors)
    (hcheck : ClassDef.checkConstructor r (d.entry declared) k = [])
    (hfields : ∀ f ∈ d.fields, ClassDef.checkField r (d.entry declared) f = [])
    (hparams : outerField ∉ k.params.map Param.name) (hlocals : outerField ∉ declaredAll k.body) (optimize : Bool) :
    let l := d.lowerConstructor optimize k
    Settles Diagnostic.IsLimit (compileMethod .static (LoweredClass.context r (d.entry declared) l) l) fun _ => True := by
  obtain ⟨hdeclares, ⟨ts, m, hts, hm⟩, hw⟩ := ClassDef.checkConstructor_eq_nil.1 hcheck
  have hc : LoweredClass.context r (d.entry declared) (d.lowerConstructor optimize k) =
      .ofConstructor r (d.entry declared) := by
    rw [ClassDef.lowerConstructor_eq, LoweredClass.context, Context.ofConstructor, h.isStatic_constructor hk]
  have hnames : ∀ {s s'}, s.Extends d.outerLocals s' →
      (Context.ofConstructor r (d.entry declared)).KeepsNames constructorName s s' :=
    fun hs => h.keepsNames _ rfl rfl constructorName hs
  dsimp only
  rw [hc, ClassDef.lowerConstructor_eq, compileMethod]
  refine Settles.bind (ClassDef.declareParams_constructor _ hparams hdeclares) fun s hs => ?_
  have hcall : Settles Diagnostic.IsLimit (compileSuperCall .static (Context.ofConstructor r (d.entry declared)) s
      ((splitSuperCall k.body).1.map (Expr.optimized optimize))) fun _ => True :=
    Typed.superCall_settles (Context.typesOf_optimized (Context.typesOf_extends (hnames hs) hts)) hm
  refine Settles.bind hcall fun call _ => ?_
  dsimp only
  rw [ClassDef.initializerScope_outer hparams]
  refine Settles.bind (compileStmts_settles_exprs (h.typeOf_initializers hfields optimize) _) fun inits _ => ?_
  refine Settles.bind (lowerBody_settles hnames hs hw (.inl rfl) (h.callsSuper_constructor hk)
    (fun x hx => ClassDef.not_mem_outerLocals ?_) optimize) fun body _ => compileMethod_finish_settles _ _ _
  rintro rfl
  exact hlocals (ClassDef.declaredAll_splitSuperCall hx)

end Entered

/-- The class file of a class that was resolved and checked without findings is made, optimised or not, if its constructors
declare no variable with the name of the outer instance. All that can prevent it is a limit of class files, or a method
without a body that repeats the name of a parameter. In particular, the code of an expression with a type comes with that
type unless a limit is met. -/
theorem generates_checked {ds : List ClassDef} {d : ClassDef} (hd : d ∈ ds) {r : Registry}
    (hresolved : ∀ x ∈ (r.resolve ds).2, x.cls ≠ d.name.text) (hchecked : d.check (r.resolve ds).1 = [])
    (houter : ∀ k ∈ d.constructors, outerField ∉ k.params.map Param.name ∧ outerField ∉ declaredAll k.body)
    (optimize : Bool) :
    ((∃ bytes, (d.lower optimize).generate .static (r.resolve ds).1 = .ok bytes) ∨
      ∃ found, (d.lower optimize).generate .static (r.resolve ds).1 = .error found ∧
        ∀ x ∈ found, x.code = .codegenLimit ∨ d.RepeatsParam x) ∧
      ∀ (c : Context) (scope : Scope) (e : Expr) (t : Ty), c.typeOf scope e = .ok t → ∀ p : Pool,
        (∃ code p', Typed.expr c scope true e p = .ok (code, t) p') ∨
          ∃ x p', Typed.expr c scope true e p = .error x p' ∧ x.code = .codegenLimit := by
  have hentered := entered_resolve hd hresolved
  refine ⟨?_, fun c scope e t ht p => ?_⟩
  · have hmembers := hchecked
    rw [ClassDef.check, hentered.get] at hmembers
    simp only [List.append_eq_nil_iff, List.flatMap_eq_nil_iff] at hmembers
    obtain ⟨⟨hfields, hmethods⟩, hconstructors⟩ := hmembers
    have hsettles : ∀ l ∈ (d.lower optimize).methods,
        Settles (fun x => x.IsLimit ∨ d.RepeatsParam x)
          (compileMethod .static (LoweredClass.context (r.resolve ds).1 (d.entry (r.declareAll ds).1) l) l) fun _ => True := by
      intro l hl
      rcases List.mem_append.1 hl with hl | hl
      · obtain ⟨k, hk, rfl⟩ := List.mem_map.1 hl
        have hnames : outerField ∉ k.params.map Param.name ∧ outerField ∉ declaredAll k.body := by
          unfold ClassDef.allConstructors at hk
          split at hk
          · rw [List.mem_singleton.1 hk]
            exact ⟨List.not_mem_nil, List.not_mem_nil⟩
          · exact houter k hk
        exact (hentered.constructor_settles hk (hconstructors k hk) hfields hnames.1 hnames.2 optimize).mono
          (fun _ hx => .inl hx) fun _ h => h
      · obtain ⟨m, hm, rfl⟩ := List.mem_map.1 hl
        exact hentered.method_settles hm (hmethods m hm) optimize
    rcases LoweredClass.generate_settles (l := d.lower optimize) hentered.get hsettles with hok | ⟨found, herror, hfound⟩
    · exact .inl hok
    · refine .inr ⟨found, herror, fun x hx => ?_⟩
      rcases hfound x hx with hlimit | ⟨-, -, hx⟩
      · exact .inl hlimit
      · exact hx
  · have hsettles := Typed.expr_settles true ht
    cases hp : Typed.expr c scope true e p with
    | ok a p' =>
      have hty : a.2 = t := by simpa using hsettles.made hp
      exact .inl ⟨a.1, p', by rw [← hty]⟩
    | error x p' => exact .inr ⟨x, p', rfl, hsettles.failed hp⟩

end Registry

/-! ## An example -/

namespace Hive

def hiveName : Name := .ofPath ["Hive"] (Eq.refl true)

def beeName : Name := .ofPath ["Hive", "Bee"] (Eq.refl true)

def gateName : Name := .ofPath ["Gate"] (Eq.refl true)

def hive : ClassDef where
  name := hiveName
  members := [.field ⟨"honey", .int, .pub, none⟩]

/-- An inner class with initial values, one of them widened and one the outer instance, and a constructor that changes the
outer instance. -/
def bee : ClassDef where
  name := beeName
  enclosing := some hiveName
  members := [
    .field ⟨"load", .long, .priv, some (.binary .add (.lit (.int 1)) (.lit (.int 2)))⟩,
    .field ⟨"home", .ref hiveName, .priv, some .outer⟩,
    .ctor ⟨.pub, [⟨"k", .int⟩], [.superCall [], .expr (.assign (.field .outer "honey") (.var "k"))]⟩,
    .method ⟨"left", .pub, [], .long, some [.ret (some (.binary .sub (.var "load") (.field (.var "home") "honey")))]⟩]

/-- A class with a method without a body that repeats the name of a parameter. -/
def gate : ClassDef where
  name := gateName
  modifiers := .pub ||| .abstract
  members := [.method ⟨"pass", .pub ||| .abstract, [⟨"x", .int⟩, ⟨"x", .int⟩], .void, none⟩]

def classes : List ClassDef := [bee, hive, gate]

theorem names : (classes.map ClassDef.name).Nodup ∧ ∀ d ∈ classes, HostClass.ofName? d.name = none := by decide

theorem resolve_eq : Registry.host.resolve classes = (Registry.entries classes, []) := by
  have hmodifiers : classes.flatMap ClassDef.checkModifiers = [] := by decide
  have hdeclarations : classes.flatMap (ClassDef.checkDeclarations (Registry.headers classes)) = [] := by cbv
  have hinherited : classes.flatMap (ClassDef.checkInherited (Registry.entries classes)) = [] := by decide +kernel
  rw [(Registry.host_resolve names.1 names.2).2, hmodifiers, hdeclarations, hinherited]
  rfl

theorem check_bee : bee.check (Registry.entries classes) = [] := by cbv

example : gate.check (Registry.entries classes) = [] ∧
    (gate.lower true).generate .static (Registry.entries classes) =
      .error [.ofMember .duplicateVariable "Gate" "pass" "variable 'x' is already declared"] :=
  ⟨by decide +kernel, by cbv⟩

end Hive

theorem Registry.generates_checked_bee :
    Hive.bee ∈ Hive.classes ∧ (∀ x ∈ (host.resolve Hive.classes).2, x.cls ≠ Hive.bee.name.text) ∧
      Hive.bee.check (host.resolve Hive.classes).1 = [] ∧
      (∀ k ∈ Hive.bee.constructors, outerField ∉ k.params.map Param.name ∧ outerField ∉ declaredAll k.body) ∧
      ((∃ bytes, (Hive.bee.lower true).generate .static (host.resolve Hive.classes).1 = .ok bytes) ∨
        ∃ found, (Hive.bee.lower true).generate .static (host.resolve Hive.classes).1 = .error found ∧
          ∀ x ∈ found, x.code = .codegenLimit ∨ Hive.bee.RepeatsParam x) := by
  have hd : Hive.bee ∈ Hive.classes := List.mem_cons_self
  have hresolved : ∀ x ∈ (host.resolve Hive.classes).2, x.cls ≠ Hive.bee.name.text := by
    rw [Hive.resolve_eq]
    exact fun x hx => nomatch hx
  have hchecked : Hive.bee.check (host.resolve Hive.classes).1 = [] := by
    rw [Hive.resolve_eq]
    exact Hive.check_bee
  have houter : ∀ k ∈ Hive.bee.constructors, outerField ∉ k.params.map Param.name ∧ outerField ∉ declaredAll k.body := by
    decide
  exact ⟨hd, hresolved, hchecked, houter, (generates_checked hd hresolved hchecked houter true).1⟩

end ClassTree
