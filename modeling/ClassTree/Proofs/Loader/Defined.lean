import ClassTree.Proofs.Descriptor.Faithful
import ClassTree.Proofs.Loader.Batch

/-!
# When a class is defined

A class file is looked at twice: it is verified, and then a class is read from it, without a word of what the verification
found. Everything that could be missing in the second reading was refused in the first, so a class is defined iff its bytes are
read and verified as a class of the name, the name is new, and the superclass is defined and may be extended
(`Loader.Admits`). If not, the first of these conditions that fails says why (`Loader.Refuses`).

* `ClassFile.gives_of_load?`: what a loaded class says is what its class file says.
* `Loader.define_settled`: a definition adds the one class, or it changes nothing and tells which condition failed.
-/

namespace ClassTree

/-! ## Classes and their files -/

namespace ClassFile

/-- A loaded field is that of a class file. -/
structure GivesField (f : ClassFile) (i : FieldInfo) (x : LoadedField) : Prop where
  name : f.constants.utf8? i.name = some x.name
  descriptor : f.constants.utf8? i.descriptor = some x.ty.descriptor
  access : x.access = i.access

/-- A loaded method is that of a class file. -/
structure GivesMethod (f : ClassFile) (i : MethodInfo) (x : LoadedMethod) : Prop where
  name : f.constants.utf8? i.name = some x.name
  descriptor : f.constants.utf8? i.descriptor = some x.descriptor
  signature : Signature.descriptor ⟨x.params, x.ret⟩ = x.descriptor
  access : x.access = i.access
  body : x.body = if i.access.isAbstract then .abstract else .code i.maxLocals i.code

/-- The inner classes of the nesting relations whose outer class is the class itself. -/
def nestedNames (f : ClassFile) : List String :=
  f.inner.filterMap fun i => if f.constants.className? i.outer = f.name? then f.constants.className? i.inner else none

/-- What a loaded class says is what its class file says, and the superclass is the given one. -/
structure Gives (f : ClassFile) (s c : LoadedClass) : Prop where
  name : f.name? = some c.name.text
  access : c.access = f.access
  superclass : c.superclass = some s
  enclosing : c.enclosing = c.name.enclosing
  nested : c.nested.map Name.text = f.nestedNames
  fields : List.Forall₂ f.GivesField f.fields c.fields
  layout : c.layout = s.layout ++ c.fields.map fun x => ⟨c.name, x.name, x.ty⟩
  methods : List.Forall₂ f.GivesMethod f.methods c.methods
  constants : c.constants = f.constants
  host : c.host = none

/-- Two relations from the same list, member by member. -/
theorem forall₂_joined {α β γ : Type} {P : α → β → Prop} {Q R : α → γ → Prop} {xs : List α} {ys : List β} {zs : List γ}
    (hP : List.Forall₂ P xs ys) (hQ : List.Forall₂ Q xs zs) (hR : ∀ {x y z}, P x y → Q x z → R x z) :
    List.Forall₂ R xs zs := by
  induction hP generalizing zs with
  | nil =>
    cases hQ
    exact .nil
  | cons hp _ ih =>
    obtain ⟨z, rest, hq, hrest, rfl⟩ := List.forall₂_cons_left_iff.1 hQ
    exact .cons (hR hp hq) (ih hrest)

/-- An accepted class has a superclass. -/
theorem exists_superName? {f : ClassFile} (hv : f.verify = .ok ()) : ∃ superName, f.superName? = some superName := by
  simp only [verify, verifyHeader, bind_eq_ok, orFail_eq_ok] at hv
  obtain ⟨-, -, -, ⟨-, -, -, -, -, -, -, -, superName, hsuper, -⟩, -⟩ := hv
  exact ⟨superName, hsuper⟩

theorem FieldAccepted.gives {f : ClassFile} {i : FieldInfo} {name : String} (h : f.FieldAccepted i name) {x : LoadedField}
    (hx : f.loadField? i = some x) : f.GivesField i x := by
  simp only [loadField?, Option.bind_eq_bind, Option.bind_eq_some_iff, Option.pure_def, Option.some.injEq] at hx
  obtain ⟨n, hn, t, ⟨d, hd, ht⟩, rfl⟩ := hx
  exact ⟨hn, by rw [hd, (Ty.ofDescriptor?_iff.1 ht).1], Modifiers.truncate_of_isKnown h.known⟩

theorem MethodAccepted.gives {f : ClassFile} {i : MethodInfo} {key : String × String} (h : f.MethodAccepted i key)
    {x : LoadedMethod} (hx : f.loadMethod? i = some x) : f.GivesMethod i x := by
  simp only [loadMethod?, Option.bind_eq_bind, Option.bind_eq_some_iff, Option.pure_def, Option.some.injEq,
    Modifiers.truncate_of_isKnown h.known] at hx
  obtain ⟨n, hn, d, hd, sig, hsig, rfl⟩ := hx
  exact ⟨hn, hd, (Signature.ofDescriptor?_iff.1 hsig).1, rfl, rfl⟩

/-- No class is nested in itself, so a nesting relation that has the class as its outer one does not have it as its inner
one too. -/
theorem InnerAccepted.inner_ne_outer {f : ClassFile} {name : Name} {i : InnerInfo} {inner : String}
    (h : f.InnerAccepted name i inner) : f.constants.className? i.outer ≠ some inner := by
  obtain ⟨outer, n, houter, hparse, henclosing, -⟩ := h.outer
  rw [houter, ← Name.text_of_parse? hparse]
  rintro heq
  obtain rfl : outer = n.text := Option.some.inj heq
  obtain ⟨e, he, htext⟩ := Option.map_eq_some_iff.1 henclosing
  rw [Name.text_inj.1 htext] at he
  exact Name.enclosing_ne_self n he

/-- The classes nested in a class, in the order of the nesting relations. -/
theorem nested?_eq {f : ClassFile} {name : Name} (hinner : f.verifyInner name = .ok ())
    {relations : List (String × String)} (hrelations : f.inner.mapM f.nestingNames? = some relations) {nested : List Name}
    (hnested : f.nested? relations = some nested) : nested.map Name.text = f.nestedNames := by
  obtain ⟨inners, hinners, -⟩ := verifyInner_eq_ok hinner
  have htexts : ∀ {rs : List (String × String)} {ns : List Name},
      List.Forall₂ (fun r n => Name.parse? r.1 = some n) rs ns → ns.map Name.text = rs.map Prod.fst := by
    intro rs ns h
    induction h with
    | nil => rfl
    | cons hn _ ih => rw [List.map_cons, List.map_cons, ih, Name.text_of_parse? hn]
  rw [htexts (mapM_eq_some.1 hnested), nestedNames]
  have hloaded := mapM_eq_some.1 hrelations
  clear hrelations hnested
  generalize f.inner = infos at hinners hloaded
  induction hloaded generalizing inners with
  | nil => rfl
  | @cons i r is rs hr _ ih =>
    obtain ⟨inner, rest, haccepted, hrest, -⟩ := List.forall₂_cons_left_iff.1 hinners
    have hne := haccepted.inner_ne_outer
    obtain ⟨outer, -, houter, -⟩ := haccepted.outer
    simp only [nestingNames?, haccepted.names, houter, Option.some.injEq] at hr
    subst hr
    rw [houter] at hne
    rw [List.filterMap_cons, houter, haccepted.names, List.filter_cons]
    by_cases hthis : some outer = f.name?
    · rw [if_pos hthis, if_pos (by simpa [← hthis] using hne), List.map_cons, ih rest hrest]
    · rw [if_neg hthis, if_neg (by simp [Ne.symm hthis]), ih rest hrest]

/-- What a class says that is loaded from an accepted file. -/
theorem gives_of_load? {f : ClassFile} (hv : f.verify = .ok ()) {s c : LoadedClass} (hc : f.load? s = some c) :
    f.Gives s c := by
  have hloads := loads_of_load? hc
  obtain ⟨d, hd, haccess⟩ := exists_load? hv s
  obtain rfl : c = d := Option.some.inj (hc.symm.trans hd)
  obtain ⟨name, hname, hinner, hfields⟩ := verify_eq_ok hv
  obtain rfl : name = c.name := Option.some.inj (hname.symm.trans hloads.name)
  obtain ⟨text, htext, hparse⟩ := Option.bind_eq_some_iff.1 hname
  have hnamed : f.name? = some c.name.text := by rw [htext, Name.text_of_parse? hparse]
  have hmethods : f.verifyMethods = .ok () := by
    simp only [verify, bind_eq_ok] at hv
    obtain ⟨-, -, -, -, -, -, -, -, hmethods⟩ := hv
    exact hmethods
  obtain ⟨names, hnames, -⟩ := verifyFields_eq_ok.1 hfields
  obtain ⟨keys, hkeys, -⟩ := verifyMethods_eq_ok.1 hmethods
  obtain ⟨relations, hrelations, henclosing⟩ := hloads.enclosing
  have henclosed := enclosing?_eq hnamed hinner hrelations
  simp only [load?, Option.bind_eq_bind, Option.bind_eq_some_iff, Option.pure_def, Option.some.injEq] at hc
  obtain ⟨_, -, relations', hrelations', nested, hnested, fields, hfields, methods, hmethods, rfl⟩ := hc
  exact
    { name := hnamed, access := haccess, superclass := rfl, enclosing := henclosing.trans henclosed
      nested := nested?_eq hinner hrelations' hnested
      fields := forall₂_joined hnames (mapM_eq_some.1 hfields) fun h hx => h.gives hx
      layout := rfl
      methods := forall₂_joined hkeys (mapM_eq_some.1 hmethods) fun h hx => h.gives hx
      constants := rfl, host := rfl }

end ClassFile

/-! ## Definitions -/

namespace Loader

/-- A class is to be defined under a name by bytes: these are the bytes of an accepted class file of the name, and the name
is new. -/
structure Offers (l : Loader) (name : String) (bytes : Bytes) (f : ClassFile) : Prop where
  readable : ClassFile.decode bytes = .ok f
  verified : f.verify = .ok ()
  named : f.name? = some name
  new : l.contains name = false

/-- What it takes to define a class under a name by bytes: its superclass is defined too, and is not final. -/
structure Admits (l : Loader) (name : String) (bytes : Bytes) (f : ClassFile) (s : LoadedClass) : Prop
    extends l.Offers name bytes f where
  superclass : f.superName?.bind l.resolve? = some s
  extensible : s.access.isFinal = false

/-- Why no class is defined under a name by bytes: the first condition that fails. -/
inductive Refuses (l : Loader) (name : String) (bytes : Bytes) : LoadError → Prop
  | unreadable {e : FormatError} (h : ClassFile.decode bytes = .error e) : Refuses l name bytes (.verification name e.message)
  | unverified {f : ClassFile} {e : VerifyError} (readable : ClassFile.decode bytes = .ok f) (h : f.verify = .error e) :
    Refuses l name bytes (.verification name e.message)
  | misnamed {f : ClassFile} (readable : ClassFile.decode bytes = .ok f) (verified : f.verify = .ok ())
    (h : f.name? ≠ some name) :
    Refuses l name bytes (.verification name ("class file declares '" ++ f.name?.getD "" ++ "'"))
  | duplicate {f : ClassFile} (readable : ClassFile.decode bytes = .ok f) (verified : f.verify = .ok ())
    (named : f.name? = some name) (h : l.contains name = true) : Refuses l name bytes (.duplicateDefinition name)
  | undefined {f : ClassFile} {superName : String} (offered : l.Offers name bytes f) (hsuper : f.superName? = some superName)
    (h : l.resolve? superName = none) : Refuses l name bytes (.undefinedDependency name superName)
  | final {f : ClassFile} {superName : String} {s : LoadedClass} (offered : l.Offers name bytes f)
    (hsuper : f.superName? = some superName) (defined : l.resolve? superName = some s) (h : s.access.isFinal = true) :
    Refuses l name bytes (.verification name s!"cannot extend final class '{superName}'")

variable {l : Loader} {name : String} {bytes : Bytes}

theorem Admits.define_eq {f : ClassFile} {s : LoadedClass} (h : l.Admits name bytes f s) :
    ∃ c, f.load? s = some c ∧ l.define name bytes = (.ok c, ⟨l.classes.insert name c⟩) := by
  obtain ⟨superName, hsuper, hs⟩ := Option.bind_eq_some_iff.1 h.superclass
  obtain ⟨c, hc, -⟩ := ClassFile.exists_load? h.verified s
  have hlink := link_of h.verified h.named h.new hsuper hs h.extensible hc
  exact ⟨c, hc, by simp only [define, read, h.readable, defineFile, hlink]⟩

/-- What is left to check of a class that is new and accepted. -/
theorem Offers.link_eq {f : ClassFile} (h : l.Offers name bytes f) {superName : String}
    (hsuper : f.superName? = some superName) {s : Option LoadedClass} (hs : l.resolve? superName = s) :
    l.link name f = (do
      let s ← orFail (.undefinedDependency name superName) s
      require (!s.access.isFinal) (.verification name s!"cannot extend final class '{superName}'")
      orFail (.verification name "class file cannot be read again") (f.load? s)) := by
  subst hs
  simp only [link, h.verified, h.named, h.new, hsuper]
  rfl

/-- What was refused is not defined, for the reason for which it was refused. -/
theorem Refuses.define_eq {e : LoadError} (h : l.Refuses name bytes e) : l.define name bytes = (.error e, l) := by
  -- Once the bytes are read it is the class file that is refused.
  have hread : ∀ {f : ClassFile}, ClassFile.decode bytes = .ok f → l.link name f = .error e →
      l.define name bytes = (.error e, l) := by
    intro f hf hlink
    simp only [define, read, hf, defineFile, hlink]
  cases h with
  | unreadable h => simp only [define, read, h]
  | unverified readable h =>
    refine hread readable ?_
    simp only [link, h]
    rfl
  | misnamed readable verified h =>
    refine hread readable ?_
    simp only [link, verified, h, decide_false]
    rfl
  | duplicate readable verified named h =>
    obtain ⟨superName, hsuper⟩ := ClassFile.exists_superName? verified
    refine hread readable ?_
    simp only [link, verified, named, hsuper, h]
    rfl
  | undefined offered hsuper h =>
    refine hread offered.readable ?_
    rw [offered.link_eq hsuper h]
    rfl
  | @final f superName s offered hsuper defined h =>
    refine hread offered.readable ?_
    rw [offered.link_eq hsuper defined]
    change (require (!s.access.isFinal) _ >>= _) = _
    rw [h]
    rfl

/-- Either all conditions hold or there is a first one that fails. -/
theorem admits_or_refuses (l : Loader) (name : String) (bytes : Bytes) :
    (∃ f s, l.Admits name bytes f s) ∨ ∃ e, l.Refuses name bytes e := by
  rcases hf : ClassFile.decode bytes with e | f
  · exact .inr ⟨_, .unreadable hf⟩
  rcases hv : f.verify with e | _
  · exact .inr ⟨_, .unverified hf hv⟩
  by_cases hname : f.name? = some name
  swap
  · exact .inr ⟨_, .misnamed hf hv hname⟩
  rcases hnew : l.contains name with _ | _
  swap
  · exact .inr ⟨_, .duplicate hf hv hname hnew⟩
  have hoffers : l.Offers name bytes f := ⟨hf, hv, hname, hnew⟩
  obtain ⟨superName, hsuper⟩ := ClassFile.exists_superName? hv
  rcases hs : l.resolve? superName with _ | s
  · exact .inr ⟨_, .undefined hoffers hsuper hs⟩
  rcases hfinal : s.access.isFinal with _ | _
  · exact .inl ⟨f, s, hoffers, by rw [hsuper, Option.bind_some, hs], hfinal⟩
  · exact .inr ⟨_, .final hoffers hsuper hs hfinal⟩

/-- A class is defined under a name by bytes iff these are the class file of an accepted class of the name, the name is new,
and the superclass is defined and not final. Then the name stands for the class that the class file gives, and all other names
for what they stood for. If no class is defined, the loader is as it was, and the error is that of the first condition that
fails. A class file that is accepted always gives a class. -/
theorem define_settled (l : Loader) (name : String) (bytes : Bytes) :
    ((∃ c, (l.define name bytes).1 = .ok c) ↔ ∃ f s, l.Admits name bytes f s) ∧
      (∀ c, (l.define name bytes).1 = .ok c →
        (∃ f s, l.Admits name bytes f s ∧ f.Gives s c) ∧
          ∀ n, (l.define name bytes).2.resolve? n = if name = n then some c else l.resolve? n) ∧
      (∀ e, (l.define name bytes).1 = .error e ↔ l.Refuses name bytes e) ∧
      (∀ e, (l.define name bytes).1 = .error e → (l.define name bytes).2 = l) ∧
      ∀ (f : ClassFile) (s : LoadedClass), f.verify = .ok () → ∃ c, f.load? s = some c := by
  have hloads : ∀ (f : ClassFile) (s : LoadedClass), f.verify = .ok () → ∃ c, f.load? s = some c :=
    fun f s hv => (ClassFile.exists_load? hv s).imp fun _ h => h.1
  have hrefused : ∀ e, l.Refuses name bytes e → (l.define name bytes).1 = .error e := fun e h => by rw [h.define_eq]
  rcases l.admits_or_refuses name bytes with ⟨f, s, h⟩ | ⟨e, h⟩
  · obtain ⟨c, hc, hdefine⟩ := h.define_eq
    have hok : (l.define name bytes).1 = .ok c := by rw [hdefine]
    refine ⟨iff_of_true ⟨c, hok⟩ ⟨f, s, h⟩, fun d hd => ?_, fun e => ⟨fun he => ?_, hrefused e⟩, fun e he => ?_, hloads⟩
    · obtain rfl : c = d := Except.ok.inj (hok.symm.trans hd)
      rw [hdefine]
      exact ⟨⟨f, s, h, ClassFile.gives_of_load? h.verified hc⟩, resolve?_insert⟩
    · cases hok.symm.trans he
    · cases hok.symm.trans he
  · have herror := hrefused e h
    refine ⟨iff_of_false ?_ ?_, fun d hd => ?_, fun e' => ⟨fun he => ?_, hrefused e'⟩, fun _ _ => by rw [h.define_eq], hloads⟩
    · rintro ⟨c, hc⟩
      cases herror.symm.trans hc
    · rintro ⟨f, s, hadmits⟩
      obtain ⟨c, -, hdefine⟩ := hadmits.define_eq
      rw [hdefine] at herror
      cases herror
    · cases herror.symm.trans hd
    · obtain rfl : e = e' := Except.error.inj (herror.symm.trans he)
      exact h

/-- Of two classes that come one at a time: the one that is nested in a class still to come is defined, the one that extends
a class still to come is not. -/
theorem define_settled_extendsNested :
    (∃ c, (boot.define "A$B" (ExtendsNested.bytes ExtendsNested.nestedFile)).1 = .ok c) ∧
      (boot.define "A" (ExtendsNested.bytes ExtendsNested.outerFile)).1 = .error (.undefinedDependency "A" "A$B") := by
  have hroot : boot.resolve? LoadedClass.object.name.text = some .object := resolve?_boot (by simp [LoadedClass.hosts])
  have hnew : ∀ name ∈ ["A", "A$B"], boot.contains name = false := by
    intro name hname
    refine contains_boot ?_
    fin_cases hname <;> decide
  have hnested : boot.Offers "A$B" (ExtendsNested.bytes ExtendsNested.nestedFile) ExtendsNested.nestedFile :=
    ⟨ExtendsNested.accepted_nested.decoded, ExtendsNested.verify_nestedFile, rfl, hnew _ (by simp)⟩
  have houter : boot.Offers "A" (ExtendsNested.bytes ExtendsNested.outerFile) ExtendsNested.outerFile :=
    ⟨ExtendsNested.accepted_outer.decoded, ExtendsNested.verify_outerFile, rfl, hnew _ (by simp)⟩
  have hmissing : boot.resolve? "A$B" = none := by simpa [contains] using hnew "A$B" (by simp)
  exact ⟨(define_settled boot _ _).1.2 ⟨_, .object, hnested, hroot, by decide⟩,
    ((define_settled boot _ _).2.2.1 _).2 (.undefined houter rfl hmissing)⟩

end Loader

end ClassTree
