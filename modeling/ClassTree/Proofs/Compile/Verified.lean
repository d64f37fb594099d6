import Mathlib
import ClassTree.Proofs.Compilation.Linked
import ClassTree.Proofs.Scope.Slots
import ClassTree.Proofs.Verify.Orderly

/-!
# Class files that verification accepts

`LoweredClass.Sensible`: what verification asks of the names, flags and types of a lowered class and its members. The class file
of such a class is accepted iff the code of each method stays within the limits (`LoweredClass.Made.verify_iff`), if the code is
orderly and made of proper instructions.
-/

namespace ClassTree

/-! ## Texts -/

theorem length_toList_le_utf8ByteSize (s : String) : s.toList.length ≤ s.utf8ByteSize := by
  have h : ∀ cs : List Char, cs.length ≤ (String.ofList cs).utf8ByteSize := by
    intro cs
    induction cs with
    | nil => exact Nat.zero_le _
    | cons c cs ih =>
      have hpos := c.utf8Size_pos
      rw [String.ofList_cons, String.utf8ByteSize_append, List.length_cons]
      simp only [String.utf8ByteSize_singleton]
      omega
  simpa using h s.toList

theorem Ty.descriptor_ne_empty (t : Ty) : 0 < t.descriptor.toList.length := by
  cases t with
  | ref n => simp [Ty.toList_descriptor_ref]
  | _ => decide

/-- A descriptor has a letter at least for each parameter, two for the parentheses and one for the result. -/
theorem Signature.length_params_le (s : Signature) : s.params.length + 3 ≤ s.descriptor.utf8ByteSize := by
  have hparams : ∀ ts : List Ty, ts.length ≤ ((ts.map Ty.descriptor).flatMap String.toList).length := by
    intro ts
    induction ts with
    | nil => exact Nat.zero_le _
    | cons t ts ih =>
      have hpos := t.descriptor_ne_empty
      simp only [List.map_cons, List.flatMap_cons, List.length_append, List.length_cons]
      omega
  have hall := hparams s.params
  have hret := s.ret.descriptor_ne_empty
  refine Nat.le_trans ?_ (length_toList_le_utf8ByteSize _)
  rw [Signature.toList_descriptor]
  simp only [List.length_cons, List.length_append]
  omega

/-- The texts in a class file that could be written are short. -/
theorem ClassFile.utf8ByteSize_le {f : ClassFile} {bytes : Bytes} (h : f.encode = .ok bytes) {i : UInt16} {s : String}
    (hs : f.constants.utf8? i = some s) : s.utf8ByteSize ≤ 65535 := by
  simp only [ClassFile.encode, bind_eq_ok] at h
  obtain ⟨_, -, constants, hconstants, -⟩ := h
  have hmem : Constant.utf8 s ∈ f.constants.toList := by
    unfold Constants.utf8? at hs
    split at hs
    · rename_i t hget
      cases hs
      unfold Constants.get? at hget
      split at hget
      · cases hget
      · exact Array.mem_toList_iff.2 (Array.mem_of_getElem? hget)
    · cases hs
  obtain ⟨bs, -, hbs⟩ := exists_right (mapM_eq_ok.1 hconstants) hmem
  simp only [Constant.encode, Constant.payload, Bytes.count, bind_eq_ok] at hbs
  obtain ⟨_, ⟨_, hcount, -⟩, -⟩ := hbs
  split at hcount
  · rename_i hlt
    have hlength := Bytes.length_ofText s
    omega
  · cases hcount

/-! ## What is asked of lowered classes -/

/-- What verification asks of a lowered method by itself, in a class with the flags `cls`. -/
structure LoweredMethod.Sensible (cls : Modifiers) (m : LoweredMethod) : Prop where
  name : m.name ≠ ""
  known : m.modifiers.isKnown = true
  params : ∀ p ∈ m.params, p.ty.isVoid = false
  constructor : m.name = constructorName → m.modifiers.isStatic = false ∧ m.ret.isVoid = true
  abstract : m.modifiers.isAbstract = true ↔ m.body = .abstract
  concrete : m.body = .abstract → cls.isAbstract = true

/-- What verification asks of the names, flags and types of a lowered class, among the classes of a registry. -/
structure LoweredClass.Sensible (r : Registry) (l : LoweredClass) : Prop where
  known : l.modifiers.isKnown = true
  shape : l.modifiers.isAbstract = false ∨ l.modifiers.isFinal = false
  superclass : l.superclass ≠ l.name
  enclosing : l.name.enclosing = l.enclosing
  nested : ∀ e ∈ r.classes, e.enclosing = some l.name → e.name.enclosing = some l.name ∧ e.modifiers.isKnown = true
  distinct : (r.classes.map ClassEntry.name).Nodup
  fields : ∀ x ∈ l.fields, x.name ≠ "" ∧ x.ty.isVoid = false ∧ x.modifiers.isKnown = true
  fieldNames : (l.fields.map LoweredField.name).Nodup
  methods : ∀ m ∈ l.methods, m.Sensible l.modifiers
  signatures : (l.methods.map fun m => (m.name, m.descriptor)).Nodup

/-! ## The parts of class files -/

theorem ClassFile.memberName?_eq {cs : Constants} {i : UInt16} {s : String} (h : cs.utf8? i = some s) (hne : s ≠ "") :
    memberName? cs i = some s := by
  simp [memberName?, h, hne]

namespace LoweredClass

variable {b : Binding} {r : Registry} {entry : ClassEntry} {l : LoweredClass} {f : ClassFile}

theorem NestingMade.accepted {n outer name : Name} {m : Modifiers} {info : InnerInfo}
    (h : NestingMade f.constants n m outer info) (hn : n.enclosing = some outer) (hm : m.isKnown = true)
    (hrelated : n = name ∨ outer = name) : f.InnerAccepted name info n.text :=
  ⟨h.inner, h.access ▸ hm, outer.text, n, h.outer, n.parse?_text, by rw [hn]; rfl, h.simpleName,
    hrelated.imp (congrArg Name.text) (congrArg Name.text)⟩

namespace Made

variable (h : l.Made b r entry f) (hl : l.Sensible r)
include h hl

theorem verifyHeader : f.verifyHeader = .ok l.name := by
  have hne : l.superclass.text ≠ l.name.text := fun heq => hl.superclass (Name.text_inj.1 heq)
  simp only [ClassFile.verifyHeader, bind_eq_ok, orFail_eq_ok, require_eq_ok, h.name, h.superName, h.access]
  refine ⟨_, rfl, l.name, l.name.parse?_text, (), hl.known, (), ?_, _, rfl, (), by simpa using hne, rfl⟩
  rcases hl.shape with hshape | hshape <;> simp [hshape]

theorem verifyInner : f.verifyInner l.name = .ok () := by
  obtain ⟨own, nested, heq, hown, hnested⟩ := h.inner
  have hnames : ∀ e ∈ r.classes.filter (·.enclosing = some l.name),
      e.name.enclosing = some l.name ∧ e.modifiers.isKnown = true := by
    intro e he
    obtain ⟨hmem, henc⟩ := List.mem_filter.1 he
    exact hl.nested e hmem (by simpa using henc)
  have hall : List.Forall₂ (f.InnerAccepted l.name) f.inner (l.enclosing.toList.map (fun _ => l.name.text) ++
      (r.classes.filter (·.enclosing = some l.name)).map (·.name.text)) := by
    rw [heq]
    refine List.rel_append (List.forall₂_map_right_iff.2 (forall₂_flip_of_mem hown fun outer houter info _ hinfo => ?_))
      (List.forall₂_map_right_iff.2 (forall₂_flip_of_mem hnested fun e he info _ hinfo => ?_))
    · exact hinfo.accepted (hl.enclosing.trans (by simpa using houter)) hl.known (.inl rfl)
    · exact hinfo.accepted (hnames e he).1 (hnames e he).2 (.inr rfl)
  refine ClassFile.verifyInner_of_accepted hall ?_ fun hisNested => ?_
  · have hdistinct : ((r.classes.filter (·.enclosing = some l.name)).map (·.name.text)).Nodup := by
      have hsub : List.Sublist ((r.classes.filter (·.enclosing = some l.name)).map ClassEntry.name)
          (r.classes.map ClassEntry.name) := List.filter_sublist.map _
      have htexts := (hl.distinct.sublist hsub).map fun _ _ => Name.text_inj.1
      rwa [List.map_map] at htexts
    refine List.nodup_append.2 ⟨by cases l.enclosing <;> simp, hdistinct, fun x hx y hy hxy => ?_⟩
    obtain ⟨_, -, rfl⟩ := List.mem_map.1 hx
    obtain ⟨e, he, rfl⟩ := List.mem_map.1 hy
    have henc := (hnames e he).1
    rw [← Name.text_inj.1 hxy] at henc
    exact l.name.enclosing_ne_self henc
  · have hsome : l.enclosing.isSome = true := by rw [← hl.enclosing, ← Name.isNested_eq, hisNested]
    obtain ⟨outer, houter⟩ := Option.isSome_iff_exists.1 hsome
    exact List.mem_append_left _ (by simp [houter])

theorem verifyFields : f.verifyFields = .ok () := by
  refine ClassFile.verifyFields_eq_ok.2 ⟨l.fields.map LoweredField.name, ?_, hl.fieldNames⟩
  refine List.forall₂_map_right_iff.2 (forall₂_flip_of_mem h.fields fun x hx info _ hinfo => ?_)
  obtain ⟨hname, hty, hknown⟩ := hl.fields x hx
  refine ⟨ClassFile.memberName?_eq hinfo.name hname, ⟨x.ty.erased, ?_⟩, hinfo.access ▸ hknown⟩
  rw [hinfo.descriptor]
  exact Ty.ofFieldDescriptor?_descriptor hty

end Made

end LoweredClass

/-! ## Methods -/

theorem nextSlot_afterParams {params : List Param} {s : Scope} (h : s.DeclaresAll params) :
    (afterParams params s).nextSlot = s.nextSlot + params.length := by
  induction params generalizing s with
  | nil => rfl
  | cons p params ih =>
    obtain ⟨⟨slot, hslot⟩, hrest⟩ := h
    have hdeclare : s.declare p.name p.ty = (.ok slot, (s.declare p.name p.ty).2) := Prod.ext hslot rfl
    have hnext : (s.declare p.name p.ty).2.nextSlot = s.nextSlot + 1 := by rw [(Scope.declare_eq_ok hdeclare).2.2]
    rw [show afterParams (p :: params) s = afterParams params (s.declare p.name p.ty).2 from rfl, ih hrest, hnext,
      List.length_cons]
    omega

theorem compileMethod_declares (b : Binding) (c : Context) (m : LoweredMethod) :
    Gen.Yields (compileMethod b c m) fun mc => c.firstScope.DeclaresAll m.params ∧ (m.body = .abstract → mc.code = #[]) := by
  unfold compileMethod
  refine .bind (declareParams_yields c m.params _) fun s hs => ?_
  dsimp only
  split
  · exact .pure ⟨hs.2, fun _ => rfl⟩
  · rename_i hbody
    exact fun _ _ _ _ => ⟨hs.2, fun h => LoweredBody.noConfusion (hbody.symm.trans h)⟩
  · rename_i hbody
    exact fun _ _ _ _ => ⟨hs.2, fun h => LoweredBody.noConfusion (hbody.symm.trans h)⟩

/-- The code that is made of the method is orderly, in whatever pool its constants end up. -/
def LoweredMethod.KeepsStack (b : Binding) (c : Context) (m : LoweredMethod) : Prop :=
  m.body ≠ .abstract → ∀ mc p q r, compileMethod b c m p = .ok mc q → r.WellFormed → q.Later r →
    ∃ code : Block, mc.code = code.encode ∧ code.Orderly r

/-- A method has slots for its receiver and all of its parameters. -/
theorem LoweredMethod.length_params_le (m : LoweredMethod) {c : Context} (h : c.firstScope.DeclaresAll m.params) :
    m.params.length + (if c.isStatic then 0 else 1) ≤ (m.lastScope c.firstScope).nextSlot := by
  have hfirst : c.firstScope.nextSlot = if c.isStatic then 0 else 1 := by
    unfold Context.firstScope
    split <;> rfl
  have hle := m.nextSlot_le_lastScope c.firstScope
  rw [nextSlot_afterParams h, hfirst] at hle
  omega

/-- Where there is no code, nothing is over the limits. -/
theorem Instr.withinLimits_empty {C : Constants} : Instr.WithinLimits C #[] := by
  have hnone : ∀ o, Instr.at? #[] o = none := by
    intro o
    rw [Instr.at?]
    rfl
  refine ⟨fun o s _ h => ?_, fun o n h => ?_⟩
  · rw [hnone] at h
    rcases h with h | h <;> cases h
  · cases h with
    | start => exact Nat.zero_le _
    | lead _ hi => cases (hnone _).symm.trans hi

theorem Block.Orderly.size_pos {code : Block} {p : Pool} (h : code.Orderly p) : code.encode ≠ #[] := by
  intro hempty
  obtain ⟨i, hi⟩ := h.stays 0 .start
  have hat := hi.at?
  rw [hempty] at hat
  cases hat

namespace LoweredClass

variable {b : Binding} {r : Registry} {entry : ClassEntry} {l : LoweredClass} {f : ClassFile}

namespace MethodMade

variable {m : LoweredMethod} {info : MethodInfo} (h : MethodMade b r entry f.constants m info)
  (hnamed : b = .static → r.Named) (hconstructs : m.Constructs) (hkeeps : m.KeepsStack b (context r entry m))
include h hnamed hconstructs hkeeps

/-- The code that was made of a method is written as verification takes it for granted. -/
theorem written (hbody : m.body ≠ .abstract) {k : CodeCheck} (hcode : k.code = info.code)
    (hconstants : k.constants = f.constants) (hlocals : k.maxLocals = info.maxLocals) (hret : k.returnsValue = !m.ret.isVoid) :
    ∃ code p, k.Written code p (m.lastScope (context r entry m).firstScope).nextSlot := by
  obtain ⟨p, q, hcompile, hwithin⟩ := h.code
  obtain ⟨s, hlater, hwf, hover, hs⟩ := id hwithin
  obtain ⟨code, hencoded, horderly⟩ := hkeeps hbody _ _ _ s hcompile hwf hlater
  obtain ⟨hmax, code', hencoded', hproper⟩ := (compileMethod_proper hnamed rfl hconstructs p _ q hcompile).2 hwithin
  have hsame : code.encode = code'.encode := hencoded.symm.trans hencoded'
  have hinstrs : code'.instrs.toList = code.instrs.toList :=
    Instr.flatMap_encode_inj (by simpa [Block.encode, encodeCode] using hsame.symm)
  refine ⟨code, s, hcode.trans hencoded, horderly, hconstants.trans hs.symm, hover, fun i hi => ?_, ?_⟩
  · rw [hconstants, hret]
    refine hproper i ?_
    rw [← Array.mem_toList_iff, hinstrs, Array.mem_toList_iff]
    exact hi
  · change info.maxLocals = _ at hmax
    rw [hlocals, hmax, Scope.toNat_maxLocals]

/-- Of a method that was made verification asks only that its code stays within the limits. -/
theorem accepted_iff (hm : m.Sensible f.access) {bytes : Bytes} (hencode : f.encode = .ok bytes) :
    f.MethodAccepted info (m.name, m.descriptor) ↔ Instr.WithinLimits f.constants info.code := by
  have hsig : Signature.ofDescriptor? m.descriptor = some m.signature.erased :=
    Signature.ofDescriptor?_descriptor fun t ht => by
      obtain ⟨p, hp, rfl⟩ := List.mem_map.1 ht
      exact hm.params p hp
  have hret : m.signature.erased.ret.isVoid = m.ret.isVoid := Ty.isVoid_erased _
  have hwritten := fun hbody => h.written hnamed hconstructs hkeeps hbody
    (k := f.codeCheck info m.name m.descriptor m.signature.erased) rfl rfl rfl (by rw [← hret]; rfl)
  obtain ⟨p, q, hcompile, -⟩ := h.code
  obtain ⟨hdeclares, hempty⟩ := compileMethod_declares b _ m p _ q hcompile
  have habstract : info.access.isAbstract = true ↔ m.body = .abstract := h.access ▸ hm.abstract
  constructor
  · rintro ⟨-, -, -, sig, hsig', -, hcode⟩
    obtain rfl : sig = m.signature.erased := Option.some.inj (hsig'.symm.trans hsig)
    by_cases hbody : m.body = .abstract
    · rw [show info.code = #[] from hempty hbody]
      exact Instr.withinLimits_empty
    · rw [if_neg fun habs => hbody (habstract.1 habs)] at hcode
      obtain ⟨code, pool, hw⟩ := hwritten hbody
      exact hw.exists_analyze_iff.1 hcode.2.2
  · intro hlimits
    refine ⟨ClassFile.memberName?_eq h.name hm.name, h.descriptor, h.access ▸ hm.known, _, hsig, fun hc => ?_, ?_⟩
    · rw [h.access, hret]
      exact hm.constructor hc
    · by_cases hbody : m.body = .abstract
      · rw [if_pos (habstract.2 hbody), show info.code = #[] from hempty hbody]
        exact ⟨hm.concrete hbody, rfl⟩
      · rw [if_neg fun habs => hbody (habstract.1 habs)]
        obtain ⟨code, pool, hw⟩ := hwritten hbody
        refine ⟨?_, ?_, hw.exists_analyze_iff.2 hlimits⟩
        · have hne := hw.orderly.size_pos
          rw [← hw.encoded] at hne
          simpa [ClassFile.codeCheck] using hne
        · have hparams : m.signature.params.length = m.params.length := List.length_map ..
          have herased : m.signature.erased.params.length = m.params.length := (List.length_map ..).trans hparams
          have hslots : m.params.length + (if m.modifiers.isStatic then 0 else 1) ≤ _ := m.length_params_le hdeclares
          have hlength := m.signature.length_params_le
          have hbytes : m.signature.descriptor.utf8ByteSize ≤ 65535 := ClassFile.utf8ByteSize_le hencode h.descriptor
          have hlocals : info.maxLocals.toNat = _ := hw.locals
          rw [herased, hlocals, h.access]
          refine Nat.le_min.2 ⟨hslots, ?_⟩
          split <;> omega

end MethodMade

/-- Verification accepts the class file of a sensible class iff the code of all methods stays within the limits. -/
theorem assemble_verify_iff {bytes : Bytes} (hmade : l.assemble b r entry = .ok f) (hencode : f.encode = .ok bytes)
    (hl : l.Sensible r) (hnamed : b = .static → r.Named) (hconstructs : ∀ m ∈ l.methods, m.Constructs)
    (hkeeps : ∀ m ∈ l.methods, m.KeepsStack b (context r entry m)) :
    f.verify = .ok () ↔ ∀ info ∈ f.methods, Instr.WithinLimits f.constants info.code := by
  have h := assemble_made hmade
  have hconstants : f.constants.verify = .ok () := by
    have hcode : ∀ m ∈ l.methods, ∀ (p : Pool) mc q, compileMethod b (context r entry m) m p = .ok mc q →
        p.Grows Item.Valid q := by
      intro m hm p mc q hcompile
      have hmakes : Gen.Makes Item.Valid f.constants (compileMethod b (context r entry m) m) _ :=
        compileMethod_proper hnamed rfl (hconstructs m hm)
      exact (hmakes p mc q hcompile).1
    obtain ⟨q, hgrows, hover, hq⟩ := assemble_grows (fun n => ⟨n, n.parse?_text⟩) (fun _ => trivial) hmade hcode
    rw [hq]
    exact hgrows.verify hover
  have haccess := h.access
  have haccepted : ∀ m ∈ l.methods, ∀ info, MethodMade b r entry f.constants m info →
      (f.MethodAccepted info (m.name, m.descriptor) ↔ Instr.WithinLimits f.constants info.code) :=
    fun m hm info hinfo => hinfo.accepted_iff hnamed (hconstructs m hm) (hkeeps m hm) (haccess ▸ hl.methods m hm) hencode
  have hverify : f.verify = .ok () ↔ f.verifyMethods = .ok () := by
    simp only [ClassFile.verify, bind_eq_ok, hconstants, h.verifyHeader hl, h.verifyFields hl, Except.ok.injEq, exists_eq_left',
      h.verifyInner hl, true_and, exists_const]
  rw [hverify]
  constructor
  · intro hmethods info hinfo
    obtain ⟨keys, hkeys, -⟩ := ClassFile.verifyMethods_eq_ok.1 hmethods
    obtain ⟨m, hm, hinfo'⟩ := exists_left h.methods hinfo
    obtain ⟨⟨name, descriptor⟩, -, hkey⟩ := exists_right hkeys hinfo
    obtain rfl : m.name = name :=
      Option.some.inj ((ClassFile.memberName?_eq hinfo'.name (hl.methods m hm).name).symm.trans hkey.name)
    obtain rfl : m.descriptor = descriptor := Option.some.inj (hinfo'.descriptor.symm.trans hkey.descriptor)
    exact (haccepted m hm info hinfo').1 hkey
  · intro hlimits
    refine ClassFile.verifyMethods_eq_ok.2 ⟨l.methods.map fun m => (m.name, m.descriptor), ?_, hl.signatures⟩
    exact List.forall₂_map_right_iff.2 (forall₂_flip_of_mem h.methods fun m hm info hmem hinfo =>
      (haccepted m hm info hinfo).2 (hlimits info hmem))

end LoweredClass

end ClassTree
