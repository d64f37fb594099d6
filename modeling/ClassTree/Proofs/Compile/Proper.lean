import ClassTree.Proofs.Code.Balanced
import ClassTree.Proofs.Compile.Every
import ClassTree.Proofs.Machine.VerifiedStep
import ClassTree.Proofs.Typing.Valued
import ClassTree.Proofs.Verify.Items

/-!
# Instructions that verification accepts

`i.Proper cs slots returns`: the instruction `i` names constants that it can use and slots below `slots`, and returns a value
only where `returns` allows it. Such an instruction has an effect (`CodeCheck.exists_effect`).

`Registry.Named`: the fields and methods of all classes have names that verification accepts, and the fields hold values. In a
context with such a registry only proper instructions are made, and only valid items enter the pool
(`compileMethod_proper`).
-/

namespace ClassTree

/-! ## Effects -/

/-- What verification asks of an instruction; where a jump leads is not asked. -/
structure Instr.Proper (cs : Constants) (slots : Nat) (returns : Bool) (i : Instr) : Prop where
  supplied : i.isSupplied cs = true
  slot : ∀ s, i = .load s ∨ i = .store s → s.toNat < slots
  kind : ∀ kind j ref, i = .invoke kind j → cs.methodRef? j = some ref → (kind = .special ↔ ref.name = constructorName)
  result : i = .ret → returns = true

section Effects

variable {k : CodeCheck} {cs : Constants} {slots : Nat} {returns : Bool}

/-- A proper instruction has an effect where it stands, if it does not jump back too far. -/
theorem CodeCheck.exists_effect {i : Instr} {o : Nat} (h : i.Proper k.constants k.maxLocals.toNat k.returnsValue)
    (hwithin : i.Within o) : ∃ e, k.effect o i = .ok e := by
  have hsupplied := h.supplied
  cases i with
  | ldc j =>
    simp only [Instr.isSupplied] at hsupplied
    simp only [effect]
    split at hsupplied
    case h_5 => cases hsupplied
    all_goals simp [*]
  | load s | store s =>
    have hlt : s < k.maxLocals := h.slot s (by simp)
    simp [effect, hlt]
  | field access j =>
    obtain ⟨ref, href⟩ := Option.isSome_iff_exists.1 hsupplied
    cases access <;> exact ⟨_, bind_eq_ok.2 ⟨ref, need_eq_ok.2 href, rfl⟩⟩
  | fieldDyn access j =>
    obtain ⟨name, hname⟩ := Option.isSome_iff_exists.1 hsupplied
    cases access <;> exact ⟨_, bind_eq_ok.2 ⟨name, need_eq_ok.2 hname, rfl⟩⟩
  | new j | invokeDynamic j argc | invokeSpecialDyn j argc =>
    obtain ⟨name, hname⟩ := Option.isSome_iff_exists.1 hsupplied
    exact ⟨_, bind_eq_ok.2 ⟨name, need_eq_ok.2 hname, rfl⟩⟩
  | invokeStaticDyn j l argc =>
    obtain ⟨hj, hl⟩ := Bool.and_eq_true_iff.1 hsupplied
    obtain ⟨cls, hcls⟩ := Option.isSome_iff_exists.1 hj
    obtain ⟨name, hname⟩ := Option.isSome_iff_exists.1 hl
    exact ⟨_, bind_eq_ok.2 ⟨cls, need_eq_ok.2 hcls, bind_eq_ok.2 ⟨name, need_eq_ok.2 hname, rfl⟩⟩⟩
  | invoke kind j =>
    obtain ⟨ref, href, hsig⟩ := (Option.any_eq_true ..).1 hsupplied
    obtain ⟨sig, hsig⟩ := Option.isSome_iff_exists.1 hsig
    have hkind := h.kind kind j ref rfl href
    simp only [effect, bind_eq_ok, need_eq_ok]
    exact ⟨_, ref, href, sig, hsig, if_neg (not_not.2 (propext hkind))⟩
  | loop w =>
    have hle := hwithin w rfl
    simp [effect, hle]
  | ret =>
    simp [effect, h.result rfl]
  | _ => exact ⟨_, rfl⟩

end Effects

/-! ## Single instructions -/

theorem Ty.ofFieldDescriptor?_descriptor {t : Ty} (h : t.isVoid = false) : ofFieldDescriptor? t.descriptor = some t.erased := by
  rw [ofFieldDescriptor?, ofDescriptor?_descriptor]
  simp [isVoid_erased, h]

section Instructions

variable {cs : Constants} {slots : Nat} {returns : Bool}

theorem Instr.proper_of_isPlain {i : Instr} (h : i.isPlain = true) : i.Proper cs slots returns := by
  cases i with
  | ldc | load | store | field | fieldDyn | new | invoke | invokeDynamic | invokeSpecialDyn | invokeStaticDyn | ret => cases h
  | _ => exact ⟨rfl, by simp, by simp, by simp⟩

theorem Instr.proper_load {s : UInt16} (h : s.toNat < slots) : (Instr.load s).Proper cs slots returns :=
  ⟨rfl, by simpa using h, by simp, by simp⟩

theorem Instr.proper_store {s : UInt16} (h : s.toNat < slots) : (Instr.store s).Proper cs slots returns :=
  ⟨rfl, by simpa using h, by simp, by simp⟩

theorem slotsBelow_proper : SlotsBelow (Instr.Proper cs slots returns) slots := fun _ h =>
  ⟨Instr.proper_load h, Instr.proper_store h⟩

/-- A literal may be added to the pool, and an instruction that pushes it is proper. -/
theorem Item.names_literal {item : Item} (h : item.isLoadable = true) :
    Gen.Names Item.Valid cs (Instr.Proper cs slots returns) item .ldc := by
  suffices hsupplied : ∀ i, cs.Has i item → (Instr.ldc i).isSupplied cs = true by
    refine ⟨?_, fun i hi => ⟨hsupplied i hi, by simp, by simp, by simp⟩⟩
    cases item with
    | int | long | double | string => trivial
    | utf8 | cls | field | method => cases h
  intro i hi
  simp only [Instr.isSupplied]
  cases item with
  | int | long =>
    rw [show cs.get? i = _ from hi]
  | double =>
    obtain ⟨d, hd, -⟩ := hi
    rw [hd]
  | string s =>
    have htext : cs.string? i = some s := hi
    have hget := htext
    unfold Constants.string? at hget
    split at hget
    · rename_i hconstant
      rw [hconstant, htext]
      rfl
    · cases hget
  | utf8 | cls | field | method => cases h

theorem Item.names_class (n : Name) : Gen.Names Item.Valid cs (Instr.Proper cs slots returns) (.cls n.text) .new :=
  ⟨⟨n, n.parse?_text⟩, fun _ hi => ⟨Option.isSome_iff_exists.2 ⟨_, hi⟩, by simp, by simp, by simp⟩⟩

theorem Item.names_field (cls : Name) {name : String} {ty : Ty} (hname : name ≠ "") (hty : ty.isVoid = false)
    (access : FieldAccess) :
    Gen.Names Item.Valid cs (Instr.Proper cs slots returns) (.field ⟨cls.text, name, ty.descriptor⟩) (.field access) :=
  ⟨⟨⟨cls, cls.parse?_text⟩, hname, _, Ty.ofFieldDescriptor?_descriptor hty⟩,
    fun _ hi => ⟨Option.isSome_iff_exists.2 ⟨_, hi⟩, by simp, by simp, by simp⟩⟩

theorem Item.names_method (cls : Name) {name : String} {s : Signature} {kind : CallKind} (hname : name ≠ "")
    (hparams : ∀ t ∈ s.params, t.isVoid = false) (hkind : kind = .special ↔ name = constructorName) :
    Gen.Names Item.Valid cs (Instr.Proper cs slots returns) (.method ⟨cls.text, name, s.descriptor⟩) (.invoke kind) := by
  have hsig := Signature.ofDescriptor?_descriptor hparams
  refine ⟨⟨⟨cls, cls.parse?_text⟩, hname, _, hsig⟩, fun i hi => ⟨?_, by simp, ?_, by simp⟩⟩
  · exact (Option.any_eq_true ..).2 ⟨_, hi, Option.isSome_iff_exists.2 ⟨_, hsig⟩⟩
  · rintro _ _ ref ⟨⟩ href
    cases href.symm.trans hi
    exact hkind

/-- Every text may be named. -/
theorem ByName.rules_proper : ByName.Rules Item.Valid cs (Instr.Proper cs slots returns) where
  field _ _ := ⟨trivial, fun _ hi => ⟨Option.isSome_iff_exists.2 ⟨_, hi⟩, by simp, by simp, by simp⟩⟩
  method _ _ := ⟨trivial, fun _ hi => ⟨Option.isSome_iff_exists.2 ⟨_, hi⟩, by simp, by simp, by simp⟩⟩
  new := Item.names_class
  constructor n _ := ⟨⟨n, n.parse?_text⟩, fun _ hi => ⟨Option.isSome_iff_exists.2 ⟨_, hi⟩, by simp, by simp, by simp⟩⟩
  static n name _ := ⟨⟨n, n.parse?_text⟩, trivial, fun _ _ hi hj => by
    have hsupplied := Bool.and_eq_true_iff.2 ⟨Option.isSome_iff_exists.2 ⟨_, hi⟩, Option.isSome_iff_exists.2 ⟨_, hj⟩⟩
    exact ⟨hsupplied, by simp, by simp, by simp⟩⟩

end Instructions

/-! ## Registries whose members have names -/

/-- Fields have names and hold values, and methods have names that are not those of constructors. -/
structure Registry.Named (r : Registry) : Prop where
  fields : ∀ e ∈ r.classes, ∀ f ∈ e.fields, f.name ≠ "" ∧ f.ty.isVoid = false
  methods : ∀ e ∈ r.classes, ∀ m ∈ e.methods, m.name ≠ "" ∧ m.name ≠ constructorName

section Registries

variable {b : Binding} {c : Context} {cs : Constants} {slots : Nat}

theorem constructorName_ne : constructorName ≠ "" := by decide

theorem ClassEntry.isVoid_of_mem_outerTypes {e : ClassEntry} : ∀ t ∈ e.outerTypes, t.isVoid = false := by
  unfold outerTypes
  intro t ht
  split at ht
  · rw [List.mem_singleton.1 ht]
    cases e.enclosing <;> rfl
  · cases ht

/-- What types choose may be named. -/
theorem Registry.Named.typedRules (h : c.registry.Named) {returns : Bool} :
    Typed.Rules Item.Valid cs (Instr.Proper cs slots returns) c where
  field {n name f} hf access := by
    obtain ⟨e, he, hmem, -⟩ := Registry.exists_of_findField? hf
    obtain ⟨hname, hty⟩ := h.fields e (Registry.mem_of_mem_chain he) f hmem
    exact Item.names_field f.owner hname hty access
  outer _ _ := Item.names_field _ (by decide) rfl .get
  method {n name m args} hm hpasses := by
    obtain ⟨e, he, hmem, -⟩ := Registry.exists_of_mem_findMethods hm
    obtain ⟨hname, hne⟩ := h.methods e (Registry.mem_of_mem_chain he) m hmem
    refine Item.names_method m.owner (s := m.signature) hname hpasses.isVoid ?_
    cases m.isStatic <;> simp [hne]
  new {n e} _ := Item.names_class n
  constructor {n e k args} _ _ hpasses := by
    refine Item.names_method e.name constructorName_ne (fun t ht => ?_) (by simp)
    exact (List.mem_append.1 ht).elim (ClassEntry.isVoid_of_mem_outerTypes t) (hpasses.isVoid t)
  super {n e k args} _ _ _ hpasses :=
    Item.names_method n (s := k.signature) constructorName_ne hpasses.isVoid (by simp)

/-- Whatever can be made in the context is proper. -/
theorem Registry.Named.rules (h : b = .static → c.registry.Named) (hreceiver : c.isStatic = false → 0 < slots) :
    Rules b Item.Valid cs (Instr.Proper cs slots !c.ret.isVoid) c where
  plain _ := Instr.proper_of_isPlain
  literal _ := Item.names_literal
  receiver hinstance := Instr.proper_load (hreceiver hinstance)
  result hret := ⟨rfl, by simp, by simp, fun _ => by simp [hret]⟩
  typed hb := (h hb).typedRules
  byName _ := ByName.rules_proper

end Registries

/-! ## Methods -/

section Methods

variable {b : Binding} {c : Context} {cs : Constants} {slots : Nat} {returns : Bool} {m : LoweredMethod}

theorem afterAll_exprs {xs : List Stmt} (h : ∀ x ∈ xs, ∃ e, x = .expr e) (s : Scope) : afterAll xs s = s := by
  induction xs with
  | nil => rw [afterAll]
  | cons x xs ih =>
    obtain ⟨e, rfl⟩ := h x List.mem_cons_self
    rw [afterAll, Stmt.after]
    exact ih fun x hx => h x (List.mem_cons_of_mem _ hx)

theorem nextSlot_le_afterParams (params : List Param) (s : Scope) : s.nextSlot ≤ (afterParams params s).nextSlot := by
  obtain ⟨news, hadds⟩ := exists_adds_afterParams params s
  exact hadds.nextSlot

/-- Field initialisers see no variables but those that a constructor's parameters are. -/
theorem nextSlot_initializerScope_le (params : List Param) :
    (initializerScope params).nextSlot ≤ (afterParams params .ofInstance).nextSlot := by
  cases params with
  | nil => exact Nat.le_refl _
  | cons p params =>
    have hrest := nextSlot_le_afterParams params (Scope.ofInstance.declare p.name p.ty).2
    rw [initializerScope]
    split
    · exact hrest
    · obtain ⟨news, hadds⟩ := Scope.exists_adds_declare .ofInstance p.name p.ty
      exact Nat.le_trans hadds.nextSlot hrest

namespace LoweredMethod

theorem nextSlot_le_lastScope (m : LoweredMethod) (first : Scope) :
    (afterParams m.params first).nextSlot ≤ (m.lastScope first).nextSlot := by
  unfold lastScope
  split
  · exact Nat.le_refl _
  · exact Stmt.nextSlot_le_after _ _
  · exact Stmt.nextSlot_le_after _ _

/-- A constructor is no static method, and its field initialisers declare nothing. -/
def Constructs (m : LoweredMethod) : Prop := ∀ superArgs initializers body, m.body = .constructor superArgs initializers body →
  m.modifiers.isStatic = false ∧ ∀ x ∈ initializers, ∃ e, x = .expr e

/-- An instance method has a slot for its receiver. -/
theorem lastScope_pos (m : LoweredMethod) {c : Context} (hinstance : c.isStatic = false) :
    0 < (m.lastScope c.firstScope).nextSlot := by
  refine Nat.lt_of_lt_of_le ?_ (Nat.le_trans (nextSlot_le_afterParams m.params c.firstScope) (m.nextSlot_le_lastScope _))
  rw [Context.firstScope, hinstance]
  exact Nat.one_pos

theorem Constructs.allowed (h : m.Constructs) (hc : c.isStatic = m.modifiers.isStatic) :
    m.Allowed (Instr.Proper cs (m.lastScope c.firstScope).nextSlot returns) c.firstScope := by
  refine ⟨slotsBelow_proper, fun superArgs initializers body hm => ?_, fun superArgs initializers body hm => ?_⟩
  · exact Instr.proper_load (m.lastScope_pos (hc.trans (h _ _ _ hm).1))
  · obtain ⟨hinstance, hexprs⟩ := h _ _ _ hm
    rw [afterAll_exprs hexprs]
    refine slotsBelow_proper.mono (Nat.le_trans (nextSlot_initializerScope_le m.params) ?_)
    have hfirst : c.firstScope = .ofInstance := by rw [Context.firstScope, hc, hinstance]; rfl
    rw [hfirst]
    exact m.nextSlot_le_lastScope _

end LoweredMethod

/-- The code of a method is that of a block of proper instructions, made with valid items only. -/
theorem compileMethod_proper (hregistry : b = .static → c.registry.Named) (hc : c.isStatic = m.modifiers.isStatic)
    (hm : m.Constructs) :
    Gen.Makes Item.Valid cs (compileMethod b c m) fun mc => mc.maxLocals = (m.lastScope c.firstScope).maxLocals ∧
      ∃ block : Block, mc.code = block.encode ∧
        block.Every (Instr.Proper cs (m.lastScope c.firstScope).nextSlot !c.ret.isVoid) :=
  compileMethod_every (Registry.Named.rules hregistry m.lastScope_pos) (hm.allowed hc)

/-- All methods of a lowered class are of this kind, if its constructors are instance methods. -/
theorem ClassDef.constructs_of_mem_lower {d : ClassDef} {optimize : Bool}
    (h : ∀ k ∈ d.constructors, k.modifiers.isStatic = false) (hm : m ∈ (d.lower optimize).methods) : m.Constructs := by
  intro superArgs initializers body hbody
  rcases List.mem_append.1 hm with hm | hm
  · obtain ⟨k, hk, rfl⟩ := List.mem_map.1 hm
    cases hbody
    refine ⟨?_, fun x hx => ?_⟩
    · change k.modifiers.isStatic = false
      unfold allConstructors at hk
      split at hk
      · rw [List.mem_singleton.1 hk]
        rfl
      · exact h k hk
    · rcases List.mem_append.1 hx with hx | hx
      · split at hx
        · exact ⟨_, List.mem_singleton.1 hx⟩
        · cases hx
      · obtain ⟨f, -, hx⟩ := List.mem_filterMap.1 hx
        obtain ⟨e, -, rfl⟩ := Option.map_eq_some_iff.1 hx
        exact ⟨_, rfl⟩
  · obtain ⟨m, -, rfl⟩ := List.mem_map.1 hm
    unfold lowerMethod at hbody
    split at hbody <;> cases hbody

end Methods

end ClassTree
