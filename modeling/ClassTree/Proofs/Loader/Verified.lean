import ClassTree.Proofs.ClassFile.RoundTrip
import ClassTree.Proofs.Descriptor
import ClassTree.Proofs.Verify.Accepted

/-!
# Classes of a loader are verified

`Loader.Reachable` are the loaders that come from the first one by definitions, whether these succeed or fail. Every class
that such a loader holds is sound: the code of each method that it has or inherits passed the verification
(`Loader.Reachable.sound`).

A class file of a class below the root class begins with the same constants (`Constants.belowRoot`), and can be defined first
(`Loader.define_boot`).
-/

namespace ClassTree

/-- The check that verification makes of the code of a method, if it has code. -/
def LoadedMethod.check? (constants : Constants) (m : LoadedMethod) : Option CodeCheck :=
  match m.body with
  | .code maxLocals code =>
    some { constants, method := m.text, maxLocals, code, returnsValue := !m.ret.isVoid }
  | _ => none

namespace LoadedClass

/-- The constants and the code of the methods that the class itself declares passed the verification. -/
structure Verified (c : LoadedClass) : Prop where
  constants : c.constants.verify = .ok ()
  code : ∀ m ∈ c.methods, ∀ k, m.check? c.constants = some k → ∃ r, k.analyze = .ok r

/-- The class and its superclasses are verified. -/
def Sound (c : LoadedClass) : Prop := ∀ k ∈ c.chain, k.Verified

theorem chain_eq (c : LoadedClass) : c.chain = c :: (c.superclass.elim [] chain) := by
  obtain ⟨_, _, superclass, _, _, _, _, _, _, _⟩ := c
  cases superclass <;> rfl

theorem mem_chain_self (c : LoadedClass) : c ∈ c.chain := by
  rw [chain_eq]
  exact List.mem_cons_self

/-- Superclasses of a superclass are superclasses. -/
theorem chain_subset {c k : LoadedClass} (h : k ∈ c.chain) : ∀ j ∈ k.chain, j ∈ c.chain := by
  match c with
  | ⟨_, _, none, _, _, _, _, _, _, _⟩ =>
    rw [chain, List.mem_singleton] at h
    subst h
    exact fun j hj => hj
  | ⟨_, _, some s, _, _, _, _, _, _, _⟩ =>
    rw [chain] at h
    rcases List.mem_cons.1 h with rfl | h
    · exact fun j hj => hj
    · exact fun j hj => by rw [chain]; exact List.mem_cons_of_mem _ (chain_subset h j hj)

theorem Sound.verified {c : LoadedClass} (h : c.Sound) : c.Verified := h c (mem_chain_self c)

theorem Sound.of_mem {c k : LoadedClass} (h : c.Sound) (hk : k ∈ c.chain) : k.Sound :=
  fun j hj => h j (chain_subset hk j hj)

theorem Sound.of_superclass {c s : LoadedClass} (hs : c.superclass = some s) (h : s.Sound) (hc : c.Verified) :
    c.Sound := by
  intro k hk
  rw [chain_eq, hs] at hk
  rcases List.mem_cons.1 hk with rfl | hk
  · exact hc
  · exact h k hk

/-- Host classes have no code. -/
theorem verified_ofHost (h : HostClass) (entry : ClassEntry) (superclass : Option LoadedClass) :
    (ofHost h entry superclass).Verified where
  constants := rfl
  code := by
    intro m hm k hk
    obtain ⟨e, -, he⟩ := List.mem_filterMap.1 hm
    obtain ⟨n, -, rfl⟩ := Option.map_eq_some_iff.1 he
    cases hk

theorem sound_of_mem_hosts {c : LoadedClass} (h : c ∈ hosts) : c.Sound := by
  have hobject : object.Sound := by
    intro k hk
    rw [show object.chain = [object] from rfl, List.mem_singleton] at hk
    subst hk
    exact verified_ofHost _ _ _
  simp only [hosts, List.mem_cons, List.not_mem_nil, or_false] at h
  rcases h with rfl | rfl | rfl
  · exact hobject
  · exact .of_superclass rfl hobject (verified_ofHost _ _ _)
  · exact .of_superclass rfl hobject (verified_ofHost _ _ _)

end LoadedClass

/-! ## From a class file to a class -/

namespace ClassFile

theorem memberName?_eq_some {cs : Constants} {i : UInt16} {s : String} (h : memberName? cs i = some s) :
    cs.utf8? i = some s := by
  unfold memberName? at h
  split at h
  · split at h
    · cases h
    · cases h; assumption
  · cases h

/-- The check of a loaded method's code is the one that its class file passed. -/
theorem MethodAccepted.check {f : ClassFile} {m : MethodInfo} {key : String × String} (h : f.MethodAccepted m key)
    {l : LoadedMethod} (hl : f.loadMethod? m = some l) {k : CodeCheck} (hk : l.check? f.constants = some k) :
    ∃ r, k.analyze = .ok r := by
  obtain ⟨hname, hdesc, hknown, sig, hsig, -, hbody⟩ := h
  have htrunc := Modifiers.truncate_of_isKnown hknown
  simp only [loadMethod?, memberName?_eq_some hname, hdesc, hsig, htrunc, Option.bind_eq_bind, Option.bind_some,
    Option.pure_def, Option.some.injEq] at hl
  subst hl
  by_cases habs : m.access.isAbstract = true
  · simp [LoadedMethod.check?, habs] at hk
  · rw [if_neg habs] at hbody
    simp only [LoadedMethod.check?, habs, Bool.false_eq_true, if_false, Option.some.injEq] at hk
    subst hk
    exact hbody.2.2

/-- A class file that is accepted gives a verified class. -/
theorem verified_load {f : ClassFile} {s c : LoadedClass} (hv : f.verify = .ok ()) (hc : f.load? s = some c) :
    c.Verified := by
  simp only [verify, bind_eq_ok] at hv
  obtain ⟨_, hconstants, name, -, _, -, _, -, hmethods⟩ := hv
  obtain ⟨keys, hkeys, -⟩ := verifyMethods_eq_ok.1 hmethods
  simp only [load?, Option.bind_eq_bind, Option.bind_eq_some_iff, Option.pure_def, Option.some.injEq] at hc
  obtain ⟨n, -, relations, -, nested, -, fields, -, methods, hload, rfl⟩ := hc
  refine ⟨hconstants, fun m hm k hk => ?_⟩
  obtain ⟨info, hinfo, hl⟩ := exists_left (mapM_eq_some.1 hload) hm
  obtain ⟨key, -, haccepted⟩ := exists_right hkeys hinfo
  exact haccepted.check hl hk

theorem superclass_load {f : ClassFile} {s c : LoadedClass} (hc : f.load? s = some c) : c.superclass = some s := by
  simp only [load?, Option.bind_eq_bind, Option.bind_eq_some_iff, Option.pure_def, Option.some.injEq] at hc
  obtain ⟨n, -, relations, -, nested, -, fields, -, methods, -, rfl⟩ := hc
  rfl

/-- A class file that is accepted and whose superclass is sound gives a sound class. -/
theorem sound_load {f : ClassFile} {s c : LoadedClass} (hv : f.verify = .ok ()) (hs : s.Sound)
    (hc : f.load? s = some c) : c.Sound := .of_superclass (superclass_load hc) hs (verified_load hv hc)

end ClassFile

/-! ## Loaders -/

namespace Loader

/-- Every class that the loader holds is sound. -/
def Sound (l : Loader) : Prop := ∀ name c, l.resolve? name = some c → c.Sound

/-- The loaders that come from the first one by definitions. -/
inductive Reachable : Loader → Prop
  | boot : Reachable boot
  | define {l : Loader} (name : String) (bytes : Bytes) : Reachable l → Reachable (l.define name bytes).2
  | defineAll {l : Loader} (artifacts : List Artifact) : Reachable l → Reachable (l.defineAll artifacts).2

theorem resolve?_insert {l : Loader} {name : String} {c : LoadedClass} (n : String) :
    (⟨l.classes.insert name c⟩ : Loader).resolve? n = if name = n then some c else l.resolve? n := by
  simp [resolve?, Std.HashMap.getElem?_insert]

theorem resolve?_of_define {l : Loader} {name : String} {bytes : Bytes} {c : LoadedClass}
    (h : (l.define name bytes).1 = .ok c) : (l.define name bytes).2.resolve? name = some c := by
  unfold define defineFile at h ⊢
  cases hread : read name bytes with
  | error e => rw [hread] at h; cases h
  | ok f =>
    cases hlink : l.link name f with
    | error e => simp only [hread, hlink] at h; cases h
    | ok k =>
      simp only [hread, hlink, Except.ok.injEq] at h ⊢
      rw [resolve?_insert, if_pos rfl, h]

theorem mem_of_foldl_insert {cs : List LoadedClass} {m : Std.HashMap String LoadedClass} {n : String}
    {c : LoadedClass} (h : (cs.foldl (fun m c => m.insert c.name.text c) m)[n]? = some c) :
    (c ∈ cs ∧ c.name.text = n) ∨ m[n]? = some c := by
  induction cs generalizing m with
  | nil => exact .inr h
  | cons k cs ih =>
    rcases ih h with ⟨h, hname⟩ | h
    · exact .inl ⟨List.mem_cons_of_mem _ h, hname⟩
    · rw [Std.HashMap.getElem?_insert] at h
      split at h
      · rename_i hname
        cases h
        exact .inl ⟨List.mem_cons_self, beq_iff_eq.1 hname⟩
      · exact .inr h

/-- The first loader holds every host class under its name. -/
theorem resolve?_boot {c : LoadedClass} (h : c ∈ LoadedClass.hosts) : boot.resolve? c.name.text = some c := by
  have hstring : (LoadedClass.string.name.text == LoadedClass.object.name.text) = false := by decide
  have hbuilder : (LoadedClass.stringBuilder.name.text == LoadedClass.object.name.text) = false := by decide
  have hboth : (LoadedClass.stringBuilder.name.text == LoadedClass.string.name.text) = false := by decide
  simp only [LoadedClass.hosts, List.mem_cons, List.not_mem_nil, or_false] at h
  rcases h with rfl | rfl | rfl <;>
    simp only [boot, resolve?, LoadedClass.hosts, List.foldl_cons, List.foldl_nil, Std.HashMap.getElem?_insert,
      hstring, hbuilder, hboth, beq_self_eq_true, Bool.false_eq_true, if_false, if_true]

/-- The first loader holds nothing but the host classes, each under its name. -/
theorem mem_hosts_of_resolve? {name : String} {c : LoadedClass} (h : boot.resolve? name = some c) :
    c ∈ LoadedClass.hosts ∧ c.name.text = name := by
  rcases mem_of_foldl_insert h with h | h
  · exact h
  · simp at h

theorem contains_boot {name : String} (h : name ∉ LoadedClass.hosts.map (·.name.text)) : boot.contains name = false := by
  rw [contains, Option.isSome_eq_false_iff, Option.isNone_iff_eq_none, Option.eq_none_iff_forall_ne_some]
  intro c hc
  exact h (List.mem_map.2 ⟨c, mem_hosts_of_resolve? hc⟩)

theorem sound_boot : boot.Sound :=
  fun _ _ h => LoadedClass.sound_of_mem_hosts (mem_hosts_of_resolve? h).1

theorem link_eq_ok {l : Loader} {name : String} {f : ClassFile} {c : LoadedClass} (h : l.link name f = .ok c) :
    f.verify = .ok () ∧ f.name? = some name ∧ l.contains name = false ∧
      ∃ superName s, f.superName? = some superName ∧ l.resolve? superName = some s ∧ s.access.isFinal = false ∧
        f.load? s = some c := by
  unfold link at h
  cases hv : f.verify with
  | error e => rw [hv] at h; cases h
  | ok u =>
    simp only [hv, bind_eq_ok, orFail_eq_ok, require_eq_ok] at h
    obtain ⟨_, hname, superName, hsuper, _, hnew, s, hs, _, hfinal, hc⟩ := h
    exact ⟨rfl, by simpa using hname, by simpa using hnew, superName, s, hsuper, hs, by simpa using hfinal, hc⟩

theorem link_of {l : Loader} {name superName : String} {f : ClassFile} {s c : LoadedClass}
    (hverify : f.verify = .ok ()) (hname : f.name? = some name) (hnew : l.contains name = false)
    (hsuper : f.superName? = some superName) (hs : l.resolve? superName = some s) (hfinal : s.access.isFinal = false)
    (hload : f.load? s = some c) :
    l.link name f = .ok c := by
  unfold link
  simp only [hverify, bind_eq_ok, orFail_eq_ok, require_eq_ok]
  exact ⟨(), by simpa using hname, superName, hsuper, (), by simpa using hnew, s, hs, (), by simpa using hfinal, hload⟩

/-- A property of loaders that is kept when a class is added that could be linked. -/
def Kept (P : Loader → Prop) : Prop :=
  ∀ (l : Loader) (name : String) (f : ClassFile) (c : LoadedClass), P l → l.link name f = .ok c →
    P ⟨l.classes.insert name c⟩

namespace Kept

variable {P : Loader → Prop} (hP : Kept P) {l : Loader} (h : P l)
include hP h

/-- A definition, whether it succeeds or not, keeps the property. -/
theorem defineFile (name : String) (f : ClassFile) : P (l.defineFile name f).2 := by
  unfold Loader.defineFile
  split
  · rename_i c hc
    exact hP l name f c h hc
  · exact h

theorem define (name : String) (bytes : Bytes) : P (l.define name bytes).2 := by
  unfold Loader.define
  split
  · exact hP.defineFile h name _
  · exact h

omit h in
theorem defineEach {l : Loader} (h : P l) (done : List LoadedClass) (files : List (String × ClassFile)) :
    P (l.defineEach done files).2 := by
  induction files generalizing l done with
  | nil => exact h
  | cons file files ih =>
    obtain ⟨name, f⟩ := file
    have hnext := hP.defineFile h name f
    rw [Loader.defineEach]
    split
    · rename_i c l' heq
      rw [heq] at hnext
      exact ih hnext _
    · rename_i e l' heq
      rw [heq] at hnext
      exact hnext

theorem defineAll (artifacts : List Artifact) : P (l.defineAll artifacts).2 := by
  unfold Loader.defineAll defineAllBy
  split
  · exact h
  · exact hP.defineEach h [] _

end Kept

theorem kept_sound : Kept Sound := by
  intro l name f c h hlink n k hk
  obtain ⟨hv, -, -, superName, s, -, hs, -, hload⟩ := link_eq_ok hlink
  rw [resolve?_insert] at hk
  split at hk
  · cases hk; exact ClassFile.sound_load hv (h superName s hs) hload
  · exact h n k hk

/-- Every class that a reachable loader holds is sound. -/
theorem Reachable.sound {l : Loader} (h : l.Reachable) : l.Sound := by
  induction h with
  | boot => exact sound_boot
  | define name bytes _ ih => exact kept_sound.define ih name bytes
  | defineAll artifacts _ ih => exact kept_sound.defineAll ih artifacts

end Loader

/-! ## Class files below the root class -/

namespace Constants

/-- The constants with which the class file of a class below the root class begins. -/
def belowRoot (name : Name) : List Constant :=
  [.utf8 name.text, .cls 1, .utf8 Name.object.text, .cls 3, .utf8 constructorName, .utf8 "()V"]

variable {cs : Constants} {name : Name} {rest : List Constant}

theorem verify_belowRoot (hcs : cs.toList = belowRoot name ++ rest) (hrest : cs.verifyFrom 6 rest = .ok ()) :
    cs.verify = .ok () := by
  obtain rfl : cs = (belowRoot name ++ rest).toArray := by rw [← hcs]
  have hname : verifyAt (belowRoot name ++ rest).toArray 2 (.cls 1) = .ok () := by
    simp only [verifyAt, bind_eq_ok, orFail_eq_ok]
    exact ⟨_, rfl, _, name.parse?_text, rfl⟩
  have hsuper : verifyAt (belowRoot name ++ rest).toArray 4 (.cls 3) = .ok () := by
    simp only [verifyAt, bind_eq_ok, orFail_eq_ok]
    exact ⟨_, rfl, _, Name.object.parse?_text, rfl⟩
  rw [verify, hcs]
  simp only [belowRoot, List.cons_append, List.nil_append, verifyFrom, bind_eq_ok]
  exact ⟨(), rfl, (), hname, (), rfl, (), hsuper, (), rfl, (), rfl, hrest⟩

/-- The constructor of the root class may be referred to next. -/
theorem verifyAt_superConstructor (hcs : cs.toList = belowRoot name ++ .methodRef 4 5 6 :: rest) :
    cs.verifyAt 7 (.methodRef 4 5 6) = .ok () := by
  obtain rfl : cs = (belowRoot name ++ .methodRef 4 5 6 :: rest).toArray := by rw [← hcs]
  have hdescriptor : Signature.ofDescriptor? "()V" = some ⟨[], .void⟩ :=
    Signature.ofDescriptor?_of_isValue (s := ⟨[], .void⟩) (by decide) Ty.noConfusion
  simp only [verifyAt, bind_eq_ok, orFail_eq_ok, require_eq_ok]
  exact ⟨_, rfl, _, Name.object.parse?_text, (), by decide, _, hdescriptor, rfl⟩

end Constants

/-- A class below the root class can be defined first, if its class file can be verified and loaded. -/
theorem Loader.define_boot {f : ClassFile} {bytes : Bytes} {name : String} {c : LoadedClass}
    (hencode : f.encode = .ok bytes) (hmajor : f.major = ClassFile.majorVersion)
    (hconstants : f.constants.size ≤ Pool.maxEntries) (hverify : f.verify = .ok ()) (hname : f.name? = some name)
    (hnew : Loader.boot.contains name = false) (hsuper : f.superName? = some LoadedClass.object.name.text)
    (hload : f.load? .object = some c) : (Loader.boot.define name bytes).1 = .ok c := by
  have hdecode : ClassFile.decode bytes = .ok f := (Reads.classFile hmajor hconstants hencode).decode
  have hobject : Loader.boot.resolve? LoadedClass.object.name.text = some .object :=
    Loader.resolve?_boot (by simp [LoadedClass.hosts])
  have hlink : Loader.boot.link name f = .ok c := Loader.link_of hverify hname hnew hsuper hobject rfl hload
  rw [Loader.define, Loader.read, hdecode]
  dsimp only [Loader.defineFile]
  rw [hlink]

end ClassTree
