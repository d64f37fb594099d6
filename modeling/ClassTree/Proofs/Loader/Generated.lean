import ClassTree.Proofs.Compile.Assembled
import ClassTree.Proofs.Descriptor
import ClassTree.Proofs.Loader.Verified

/-!
# Classes that were generated and loaded

When the class file of a lowered class is loaded, every lowered method is found under its name and descriptor, with the code
that was made for it (`LoweredClass.exists_loaded`, `LoweredClass.Loaded.method`).
-/

namespace ClassTree

namespace LoweredClass

/-- A loaded method that a lowered one became. -/
structure MethodLoaded (b : Binding) (r : Registry) (entry : ClassEntry) (C : Constants) (m : LoweredMethod)
    (lm : LoadedMethod) : Prop where
  name : lm.name = m.name
  descriptor : lm.descriptor = m.descriptor
  access : lm.access = m.modifiers
  signature : Signature.ofDescriptor? m.descriptor = some ⟨lm.params, lm.ret⟩
  abstract : m.modifiers.isAbstract = true → lm.body = .abstract
  code : m.modifiers.isAbstract = false → ∃ mc p q, lm.body = .code mc.maxLocals mc.code ∧
    compileMethod b (context r entry m) m p = .ok mc q ∧ q.Within C

theorem MethodMade.loaded {b : Binding} {r : Registry} {entry : ClassEntry} {f : ClassFile} {m : LoweredMethod}
    {info : MethodInfo} {key : String × String} {lm : LoadedMethod} (hmade : MethodMade b r entry f.constants m info)
    (haccepted : f.MethodAccepted info key) (hlm : f.loadMethod? info = some lm) :
    MethodLoaded b r entry f.constants m lm ∧ key = (m.name, m.descriptor) := by
  obtain ⟨haccess, hname, hdesc, p, q, hcode, hwithin⟩ := hmade
  obtain ⟨hkeyName, hkeyDesc, hknown, sig, hsig, -, -⟩ := haccepted
  have hn : key.1 = m.name := by
    have := ClassFile.memberName?_eq_some hkeyName
    rw [hname, Option.some.injEq] at this
    exact this.symm
  have hd : key.2 = m.descriptor := by
    rw [hdesc, Option.some.injEq] at hkeyDesc
    exact hkeyDesc.symm
  have htrunc : m.modifiers.truncate = m.modifiers := by simpa [Modifiers.isKnown, haccess] using hknown
  rw [hd] at hsig
  simp only [ClassFile.loadMethod?, hname, hdesc, hsig, haccess, htrunc, Option.bind_eq_bind, Option.bind_some,
    Option.pure_def, Option.some.injEq] at hlm
  subst hlm
  refine ⟨⟨rfl, rfl, rfl, hsig, fun habs => ?_, fun habs => ?_⟩, Prod.ext hn hd⟩
  · simp only [habs, if_true]
  · refine ⟨_, p, q, ?_, hcode, hwithin⟩
    simp only [habs, Bool.false_eq_true, if_false]

/-- A loaded class that a lowered one became. -/
structure Loaded (b : Binding) (r : Registry) (low : LoweredClass) (cls : LoadedClass) : Prop where
  verified : cls.Verified
  name : cls.name = low.name
  nodup : (cls.methods.map fun lm => (lm.name, lm.descriptor)).Nodup
  doubles : cls.constants.doubles = holdAll [] low.doubles
  methods : ∃ entry, r.get? low.name = some entry ∧
    List.Forall₂ (MethodLoaded b r entry cls.constants) low.methods cls.methods

/-- The methods of a class file one by one. -/
theorem methods_loaded {b : Binding} {r : Registry} {entry : ClassEntry} {f : ClassFile} {ms : List LoweredMethod}
    {infos : List MethodInfo} {keys : List (String × String)} {lms : List LoadedMethod}
    (hmade : List.Forall₂ (MethodMade b r entry f.constants) ms infos)
    (haccepted : List.Forall₂ f.MethodAccepted infos keys)
    (hload : List.Forall₂ (fun info lm => f.loadMethod? info = some lm) infos lms) :
    List.Forall₂ (MethodLoaded b r entry f.constants) ms lms ∧ lms.map (fun lm => (lm.name, lm.descriptor)) = keys := by
  induction hmade generalizing keys lms with
  | nil =>
    cases haccepted
    cases hload
    exact ⟨.nil, rfl⟩
  | cons hm _ ih =>
    cases haccepted with
    | cons hkey hkeys =>
      cases hload with
      | cons hlm hlms =>
        obtain ⟨hloaded, heq⟩ := hm.loaded hkey hlm
        obtain ⟨hrest, hmap⟩ := ih hkeys hlms
        refine ⟨.cons hloaded hrest, ?_⟩
        rw [List.map_cons, hloaded.name, hloaded.descriptor, hmap, heq]

/-- A class that is defined by the bytes that were generated is linked from the class file with the parts of the lowered one. -/
theorem exists_link {b : Binding} {r : Registry} {low : LoweredClass} {bytes : Bytes}
    (hgen : low.generate b r = .ok bytes) {l : Loader} {name : String} {cls : LoadedClass}
    (hdefine : (l.define name bytes).1 = .ok cls) :
    ∃ entry f, r.get? low.name = some entry ∧ low.Made b r entry f ∧ l.link name f = .ok cls := by
  obtain ⟨entry, f, hentry, hassemble, hencode⟩ := generate_eq_ok hgen
  have hmade := assemble_made hassemble
  refine ⟨entry, f, hentry, hmade, ?_⟩
  rw [Loader.define, Loader.read, (Reads.classFile hmade.major hmade.size hencode).decode] at hdefine
  dsimp only [Loader.defineFile] at hdefine
  split at hdefine
  · rename_i h
    cases hdefine
    exact h
  · cases hdefine

/-- The loaded class of a class file that was generated has the parts that the lowered class became. -/
theorem exists_loaded {b : Binding} {r : Registry} {low : LoweredClass} {bytes : Bytes}
    (hgen : low.generate b r = .ok bytes) {l : Loader} {name : String} {cls : LoadedClass}
    (hdefine : (l.define name bytes).1 = .ok cls) : Loaded b r low cls := by
  obtain ⟨entry, f, hentry, hmade, hlink⟩ := exists_link hgen hdefine
  obtain ⟨hverify, -, -, _, s, -, -, -, hload⟩ := Loader.link_eq_ok hlink
  have hverified := ClassFile.verified_load hverify hload
  simp only [ClassFile.verify, bind_eq_ok] at hverify
  obtain ⟨_, -, _, -, _, -, _, -, hmethods⟩ := hverify
  obtain ⟨keys, hkeys, hnodup⟩ := ClassFile.verifyMethods_eq_ok.1 hmethods
  simp only [ClassFile.load?, hmade.name, Option.bind_some, Name.parse?_text, Option.bind_eq_bind,
    Option.bind_eq_some_iff, Option.pure_def, Option.some.injEq] at hload
  obtain ⟨relations, -, nested, -, fields, -, methods, hlms, rfl⟩ := hload
  obtain ⟨hloaded, hmap⟩ := methods_loaded hmade.methods hkeys (mapM_eq_some.1 hlms)
  exact ⟨hverified, rfl, hmap ▸ hnodup, hmade.doubles, entry, hentry, hloaded⟩

/-- A method is found under its name and descriptor if no other has both. -/
theorem find?_method {lms : List LoadedMethod} (hnodup : (lms.map fun lm => (lm.name, lm.descriptor)).Nodup)
    {lm : LoadedMethod} (hlm : lm ∈ lms) :
    lms.find? (fun m => m.name = lm.name && m.descriptor = lm.descriptor) = some lm := by
  induction lms with
  | nil => cases hlm
  | cons k lms ih =>
    rw [List.map_cons, List.nodup_cons] at hnodup
    rcases List.mem_cons.1 hlm with rfl | hlm
    · simp
    · have hne : ¬ (k.name = lm.name ∧ k.descriptor = lm.descriptor) := by
        rintro ⟨hn, hd⟩
        exact hnodup.1 (List.mem_map.2 ⟨lm, hlm, by rw [hn, hd]⟩)
      rw [List.find?_cons_of_neg (by simpa using hne)]
      exact ih hnodup.2 hlm

/-- A lowered method is found under its name and descriptor. -/
theorem Loaded.method {b : Binding} {r : Registry} {low : LoweredClass} {cls : LoadedClass} (h : Loaded b r low cls)
    {entry : ClassEntry} (hentry : r.get? low.name = some entry) {m : LoweredMethod} (hm : m ∈ low.methods) :
    ∃ lm ∈ cls.methods, cls.ownMethod? m.name m.descriptor = some lm ∧ MethodLoaded b r entry cls.constants m lm := by
  obtain ⟨entry', hentry', hall⟩ := h.methods
  rw [hentry, Option.some.injEq] at hentry'
  subst hentry'
  obtain ⟨lm, hlm, hloaded⟩ := exists_right hall hm
  refine ⟨lm, hlm, ?_, hloaded⟩
  rw [LoadedClass.ownMethod?, ← hloaded.name, ← hloaded.descriptor]
  exact find?_method h.nodup hlm

end LoweredClass

end ClassTree
