import ClassTree.Check
import ClassTree.Proofs.Typing.Chosen

/-!
# Findings about bodies are errors about the class

`About name ds`: all findings of a list are errors that name a class. Nothing that the check of a class finds is a mere
warning, or about another class (`ClassDef.about_check`), so a class without errors is one in which the check found nothing.
-/

namespace ClassTree

/-! ## Findings about a class -/

/-- All findings of a list are errors that name a class. -/
def About (name : Name) (ds : List Diagnostic) : Prop := ∀ x ∈ ds, x.isError = true ∧ x.cls = name.text

namespace About

variable {name : Name} {ds es : List Diagnostic} {x : Diagnostic}

theorem nil : About name [] := fun _ h => nomatch h

theorem append (h : About name ds) (h' : About name es) : About name (ds ++ es) := by
  intro x hx
  rcases List.mem_append.1 hx with hx | hx
  · exact h x hx
  · exact h' x hx

theorem singleton (herror : x.isError = true) (hcls : x.cls = name.text) : About name [x] := by
  intro y hy
  rw [List.mem_singleton.1 hy]
  exact ⟨herror, hcls⟩

theorem flatMap {α : Type} {f : α → List Diagnostic} (items : List α) (h : ∀ a ∈ items, About name (f a)) :
    About name (items.flatMap f) := by
  intro x hx
  obtain ⟨a, ha, hx⟩ := List.mem_flatMap.1 hx
  exact h a ha x hx

/-- Findings that are errors about a class are none if that class has no errors. -/
theorem eq_nil (h : About name ds) (hok : Diagnostic.hasErrors (ds.filter (·.cls = name.text)) = false) : ds = [] := by
  refine List.eq_nil_iff_forall_not_mem.2 fun x hx => ?_
  obtain ⟨herror, hcls⟩ := h x hx
  simp only [Diagnostic.hasErrors, List.any_eq_false] at hok
  exact hok x (List.mem_filter.2 ⟨hx, by simpa using hcls⟩) herror

end About

/-! ## Failures to find a type -/

/-- A failure is an error about the class of the context. -/
def Faults {α : Type} (c : Context) (x : Except Diagnostic α) : Prop :=
  ∀ d, x = .error d → d.isError = true ∧ d.cls = c.cls.name.text

namespace Faults

variable {α β : Type} {c : Context}

theorem ok {a : α} : Faults c (.ok a : Except Diagnostic α) := nofun

theorem report {code : DiagnosticCode} {message : String} : Faults c (.error (c.report code message) : Except Diagnostic α) := by
  rintro d h
  cases h
  exact ⟨rfl, rfl⟩

theorem bind {x : Except Diagnostic α} {f : α → Except Diagnostic β} (hx : Faults c x) (hf : ∀ a, Faults c (f a)) :
    Faults c (x >>= f) := by
  intro d h
  cases x with
  | ok a => exact hf a d h
  | error e =>
    cases h
    exact hx d rfl

end Faults

namespace Context

variable {c : Context} {scope : Scope}

theorem faults_requireInstance (what : String) : Faults c (c.requireInstance what) := by
  unfold requireInstance
  split
  · exact .report
  · exact .ok

theorem faults_lookupVar (name : String) : Faults c (c.lookupVar scope name) := by
  unfold lookupVar
  split
  · exact .ok
  · split
    · exact .bind (faults_requireInstance _) fun _ => .ok
    · exact .report

theorem faults_classEntry (name : Name) : Faults c (c.classEntry name) := by
  unfold classEntry
  split
  · exact .ok
  · exact .report

theorem faults_receiverClass (t : Ty) (member : String) : Faults c (c.receiverClass t member) := by
  unfold receiverClass
  split
  · exact faults_classEntry _
  · exact .report

theorem faults_field (owner : Ty) (name : String) : Faults c (c.field owner name) := by
  refine .bind (faults_receiverClass _ _) fun cls => ?_
  split
  · exact .ok
  · exact .report

theorem faults_pick (name : String) (args : List Ty) (choice : Registry.Choice) : Faults c (c.pick name args choice) := by
  cases choice with
  | found m => exact .ok
  | noMatch => exact .report
  | ambiguous ms => exact .report

theorem faults_methodsNamed (cls : ClassEntry) (name : String) : Faults c (c.methodsNamed cls name) := by
  unfold methodsNamed
  split
  · exact .report
  · exact .ok

theorem faults_method (receiver : Ty) (name : String) (args : List Ty) : Faults c (c.method receiver name args) :=
  .bind (faults_receiverClass _ _) fun _ => .bind (faults_methodsNamed _ _) fun _ => faults_pick _ _ _

theorem faults_staticMethod (cls : Name) (name : String) (args : List Ty) : Faults c (c.staticMethod cls name args) := by
  refine .bind (faults_classEntry _) fun cls => .bind (faults_methodsNamed _ _) fun candidates => ?_
  split
  · exact .report
  · exact faults_pick _ _ _

theorem faults_outerInstance (target : ClassEntry) : Faults c (c.outerInstance target) := by
  unfold outerInstance
  split
  · exact .report
  · dsimp only
    split
    · exact .report
    · split
      · exact .ok
      · split
        · split
          · exact .ok
          · exact .report
        · exact .report

theorem faults_constructor (cls : Name) (args : List Ty) : Faults c (c.constructor cls args) := by
  refine .bind (faults_classEntry _) fun entry => ?_
  dsimp only
  have hrest : Faults c (do
      if entry.isInner then
        let _ ← c.outerInstance entry
      c.pick constructorName args (c.registry.resolveConstructor cls args)) := by
    split
    · exact .bind (faults_outerInstance _) fun _ => faults_pick _ _ _
    · exact faults_pick _ _ _
  split
  · exact .bind .report fun _ => hrest
  · exact hrest

theorem faults_superConstructor (args : List Ty) : Faults c (c.superConstructor args) := by
  unfold superConstructor
  split
  · exact faults_pick _ _ _
  · exact .report

theorem faults_binary (op : BinaryOp) (l r : Ty) : Faults c (c.binary op l r) := by
  unfold binary
  dsimp only
  repeat' split
  all_goals first | exact .ok | exact .report

theorem faults_unary (op : UnaryOp) (t : Ty) : Faults c (c.unary op t) := by
  have hite : ∀ {b : Bool} {message : String},
      Faults c (if b = true then Except.ok t else .error (c.report .invalidOperand message)) := by
    intro b message
    cases b
    · exact .report
    · exact .ok
  exact hite

theorem faults_expectAssignable (source target : Ty) : Faults c (c.expectAssignable source target) := by
  unfold expectAssignable
  split
  · exact .ok
  · exact .report

theorem faults_outerType : Faults c c.outerType := by
  refine .bind (faults_requireInstance _) fun _ => ?_
  split
  · exact .ok
  · exact .report

theorem faults_requireAssignable (target : Expr) : Faults c (c.requireAssignable target) := by
  unfold requireAssignable
  split
  · exact .ok
  · exact .report

mutual

theorem faults_typeOf : ∀ e : Expr, Faults c (c.typeOf scope e)
  | .lit l => by rw [typeOf]; exact .ok
  | .var name => by
    rw [typeOf]
    refine .bind (faults_lookupVar name) fun target => ?_
    cases target <;> exact .ok
  | .this => by rw [typeOf]; exact .bind (faults_requireInstance _) fun _ => .ok
  | .outer => by rw [typeOf]; exact faults_outerType
  | .field target name => by
    rw [typeOf]
    exact .bind (faults_typeOf target) fun t => .bind (faults_field t name) fun _ => .ok
  | .assign target value => by
    rw [typeOf]
    exact .bind (faults_requireAssignable target) fun _ => .bind (faults_typeOf target) fun _ =>
      .bind (faults_typeOf value) fun _ => .bind (faults_expectAssignable _ _) fun _ => .ok
  | .call receiver method args => by
    rw [typeOf]
    exact .bind (faults_typeOf receiver) fun _ => .bind (faults_typesOf args) fun _ =>
      .bind (faults_method _ _ _) fun _ => .ok
  | .staticCall cls method args => by
    rw [typeOf]
    exact .bind (faults_typesOf args) fun _ => .bind (faults_staticMethod _ _ _) fun _ => .ok
  | .new cls args => by
    rw [typeOf]
    exact .bind (faults_typesOf args) fun _ => .bind (faults_constructor _ _) fun _ => .ok
  | .binary op left right => by
    rw [typeOf]
    exact .bind (faults_typeOf left) fun _ => .bind (faults_typeOf right) fun _ => .bind (faults_binary _ _ _) fun _ => .ok
  | .unary op operand => by
    rw [typeOf]
    exact .bind (faults_typeOf operand) fun _ => faults_unary _ _

theorem faults_typesOf : ∀ es : List Expr, Faults c (c.typesOf scope es)
  | [] => by rw [typesOf]; exact .ok
  | e :: rest => by
    rw [typesOf]
    exact .bind (faults_typeOf e) fun _ => .bind (faults_typesOf rest) fun _ => .ok

end

end Context

namespace Check

variable {c : Context} {k : Check}

/-- All that was found is errors about the class of the context. -/
def Grave (k : Check) (c : Context) : Prop := About c.cls.name k.found.toList

theorem Grave.report (h : k.Grave c) {d : Diagnostic} (hd : d.isError = true ∧ d.cls = c.cls.name.text) :
    (k.report d).Grave c := by
  rw [Grave, Check.report, Array.toList_push]
  exact About.append h (.singleton hd.1 hd.2)

theorem Grave.note {α : Type} (h : k.Grave c) {x : Except Diagnostic α} (hx : Faults c x) : (k.note x).Grave c := by
  cases x with
  | ok a => exact h
  | error d => exact h.report (hx d rfl)

theorem Grave.value (h : k.Grave c) (e : Expr) (ty : Ty) : (value c e ty k).Grave c :=
  h.note (.bind (Context.faults_typeOf e) fun _ => Context.faults_expectAssignable _ _)

theorem Grave.superCall (h : k.Grave c) (args : List Expr) : (superCall c args k).Grave c :=
  h.note (.bind (Context.faults_typesOf args) fun _ => Context.faults_superConstructor _)

theorem Grave.condition (h : k.Grave c) (e : Expr) : (condition c e k).Grave c := by
  unfold Check.condition
  split
  · exact h
  · exact h.report ⟨rfl, rfl⟩
  · rename_i d hd
    exact h.report (Context.faults_typeOf e d hd)

theorem Grave.declare (h : k.Grave c) (x : String) (ty : Ty) : (declare c x ty k).Grave c := by
  unfold Check.declare
  dsimp only
  split
  · exact h
  · rename_i e s heq
    refine Grave.report (k := ⟨s, k.found⟩) h ?_
    cases e <;> exact ⟨rfl, rfl⟩

theorem Grave.declareParams (h : k.Grave c) (params : List Param) : (declareParams c params k).Grave c := by
  induction params generalizing k with
  | nil => exact h
  | cons p params ih => exact ih (h.declare p.name p.ty)

mutual

theorem Grave.stmt : ∀ (x : Stmt) {k : Check}, k.Grave c → (stmt c x k).Grave c
  | .block stmts, k, h => by
    rw [Check.stmt]
    exact Grave.stmtList stmts (k := k.push) h
  | .decl name ty none, k, h => by rw [Check.stmt]; exact h.declare name ty
  | .decl name ty (some e), k, h => by rw [Check.stmt]; exact (h.value e ty).declare name ty
  | .expr e, k, h => by rw [Check.stmt]; exact h.note (Context.faults_typeOf e)
  | .ret none, k, h => by
    rw [Check.stmt]
    split
    · exact h
    · exact h.report ⟨rfl, rfl⟩
  | .ret (some e), k, h => by
    rw [Check.stmt]
    split
    · exact h.report ⟨rfl, rfl⟩
    · exact h.value e c.ret
  | .cond test t none, k, h => by
    rw [Check.stmt]
    exact Grave.stmt t (k := (Check.condition c test k).push) (h.condition test)
  | .cond test t (some e), k, h => by
    rw [Check.stmt]
    have ht := Grave.stmt t (k := (Check.condition c test k).push) (h.condition test)
    exact Grave.stmt e (k := (Check.stmt c t (Check.condition c test k).push).pop.push) ht
  | .loop test body, k, h => by
    rw [Check.stmt]
    exact Grave.stmt body (k := (Check.condition c test k).push) (h.condition test)
  | .superCall _, k, h => by rw [Check.stmt]; exact h

theorem Grave.stmtList : ∀ (xs : List Stmt) {k : Check}, k.Grave c → (stmtList c xs k).Grave c
  | [], k, h => by rw [Check.stmtList]; exact h
  | x :: rest, k, h => by
    rw [Check.stmtList]
    exact Grave.stmtList rest (Grave.stmt x h)

end

theorem Grave.block (h : k.Grave c) (stmts : List Stmt) : (block c stmts k).Grave c := Grave.stmtList stmts (k := k.push) h

theorem grave_ofScope (s : Scope) : (ofScope s).Grave c := by
  rw [Grave, ofScope]
  exact .nil

end Check

namespace ClassDef

variable {r : Registry} {entry : ClassEntry}

theorem about_checkField (f : FieldDef) : About entry.name (checkField r entry f) := by
  unfold checkField
  split
  · exact (Check.grave_ofScope (c := .ofField r entry f) _).value _ _
  · exact .nil

theorem about_checkMethod (m : MethodDef) : About entry.name (checkMethod r entry m) := by
  unfold checkMethod
  split
  · exact .nil
  · rename_i body _
    have hparams := (Check.grave_ofScope (c := .ofMethod r entry m)
      (if (Context.ofMethod r entry m).isStatic then .ofStatic else .ofInstance)).declareParams m.params
    have hbody := hparams.block body
    dsimp only
    split
    · exact hbody
    · exact hbody.report ⟨rfl, rfl⟩

theorem about_checkConstructor (k : ConstructorDef) : About entry.name (checkConstructor r entry k) := by
  have hparams := (Check.grave_ofScope .ofInstance).declareParams (c := .ofConstructor r entry) k.params
  have hargs := hparams.superCall (splitSuperCall k.body).1
  exact hargs.block (splitSuperCall k.body).2

/-- Whatever the check of a class finds is an error about the class. -/
theorem about_check (cls : ClassDef) : About cls.name (cls.check r) := by
  unfold check
  split
  · exact .nil
  · rename_i entry hentry
    rw [← (Registry.get?_eq_some hentry).2]
    exact ((About.flatMap _ fun f _ => about_checkField f).append
      (.flatMap _ fun m _ => about_checkMethod m)).append (.flatMap _ fun k _ => about_checkConstructor k)

theorem check_eq_nil {cls : ClassDef} (h : Diagnostic.hasErrors (cls.check r) = false) : cls.check r = [] := by
  refine List.eq_nil_iff_forall_not_mem.2 fun d hd => ?_
  simp only [Diagnostic.hasErrors, List.any_eq_false] at h
  exact h d hd (about_check cls d hd).1

end ClassDef

end ClassTree
