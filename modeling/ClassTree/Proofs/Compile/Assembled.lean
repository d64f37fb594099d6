import ClassTree.Proofs.ClassFile.RoundTrip
import ClassTree.Proofs.Compile.Limits
import ClassTree.Proofs.Compile.Makes

/-!
# What stands in a class file that was made

The parts of a class file are those of the lowered class, in their order, and every index in them stands for what it was
made for (`LoweredClass.assemble_made`). The code of each method was made with a pool that grew into the constants of the
class file. Of the double constants of the class that are equal the class file holds the first, however references are
bound.
-/

namespace ClassTree

namespace LoweredClass

/-- The double constants of a class, in the order in which its code is made. -/
def doubles (l : LoweredClass) : List Double := l.methods.flatMap LoweredMethod.doubles

/-- The part of a class file that a method became. -/
structure MethodMade (b : Binding) (r : Registry) (entry : ClassEntry) (C : Constants) (m : LoweredMethod)
    (info : MethodInfo) : Prop where
  access : info.access = m.modifiers
  name : C.utf8? info.name = some m.name
  descriptor : C.utf8? info.descriptor = some m.descriptor
  code : ∃ p q, compileMethod b (context r entry m) m p = .ok ⟨info.maxLocals, info.code⟩ q ∧ q.Within C

variable {b : Binding} {r : Registry} {entry : ClassEntry} {C : Constants}

theorem methodInfo_made {m : LoweredMethod} {p q : Pool} {info : MethodInfo}
    (h : methodInfo b r entry m p = .ok info q) :
    p.GrowsBy m.doubles q ∧ (q.Within C → MethodMade b r entry C m info) := by
  obtain ⟨code, p', hcode, h⟩ := Gen.bind_ok_cases h
  cases h
  have hname : p'.GrowsBy [] (p'.put (.utf8 m.name)).2 := .single (.utf8 m.name)
  have hdesc : (p'.put (.utf8 m.name)).2.GrowsBy [] ((p'.put (.utf8 m.name)).2.put (.utf8 m.descriptor)).2 :=
    .single (.utf8 m.descriptor)
  have hgrows := ((compileMethod_collects b _ m p _ p' hcode).trans hname).trans hdesc
  rw [List.append_nil, List.append_nil] at hgrows
  refine ⟨hgrows, fun hw => ⟨rfl, ?_, ?_, p, p', ?_, ?_⟩⟩
  · exact Pool.has_of_put (.utf8 m.name) (hw.of_grows hdesc.grows)
  · exact Pool.has_of_put (.utf8 m.descriptor) hw
  · exact hcode
  · exact (hw.of_grows hdesc.grows).of_grows hname.grows

/-- Methods that all succeed become the parts of a table in their order. -/
theorem methodTable_made {ms : List LoweredMethod} {done methods : Array MethodInfo} {found ds : Array Diagnostic}
    {p q : Pool} (h : methodTable b r entry ms done found p = ((methods, ds), q)) (hds : ds.toList = []) :
    found.toList = [] ∧ p.GrowsBy (ms.flatMap LoweredMethod.doubles) q ∧
      (q.Within C → ∃ infos, methods.toList = done.toList ++ infos ∧
        List.Forall₂ (MethodMade b r entry C) ms infos) := by
  induction ms generalizing done found p with
  | nil =>
    cases h
    exact ⟨hds, .refl _, fun _ => ⟨[], by simp, .nil⟩⟩
  | cons m ms ih =>
    rw [methodTable] at h
    split at h
    · rename_i info p' heq
      obtain ⟨hgrows, hmade⟩ := methodInfo_made (C := C) heq
      obtain ⟨hfound, hgrows', hrest⟩ := ih h
      refine ⟨hfound, hgrows.trans hgrows', fun hw => ?_⟩
      obtain ⟨infos, heq, hinfos⟩ := hrest hw
      exact ⟨info :: infos, by simpa using heq, .cons (hmade (hw.of_grows hgrows'.grows)) hinfos⟩
    · obtain ⟨hfound, -⟩ := ih h
      simp at hfound

/-! ## The other parts -/

theorem table_made {α β : Type} {f : α → Pool → β × Pool} {R : α → β → Prop}
    (hf : ∀ (a : α) (p : Pool), p.GrowsBy [] (f a p).2 ∧ ((f a p).2.Within C → R a (f a p).1))
    (items : List α) (p : Pool) :
    p.GrowsBy [] (table f items p).2 ∧
      ((table f items p).2.Within C → List.Forall₂ R items (table f items p).1.toList) := by
  induction items using List.reverseRecOn with
  | nil => exact ⟨.refl _, fun _ => .nil⟩
  | append_singleton items a ih =>
    obtain ⟨hgrows, hrest⟩ := ih
    obtain ⟨hgrows', ha⟩ := hf a (table f items p).2
    rw [table_concat]
    refine ⟨hgrows.trans hgrows', fun hw => ?_⟩
    rw [Array.toList_push]
    exact List.rel_append (hrest (hw.of_grows hgrows'.grows)) (.cons (ha hw) .nil)

/-- The part of a class file that a field became. -/
structure FieldMade (C : Constants) (f : LoweredField) (info : FieldInfo) : Prop where
  access : info.access = f.modifiers
  name : C.utf8? info.name = some f.name
  descriptor : C.utf8? info.descriptor = some f.ty.descriptor

theorem fieldInfo_made (f : LoweredField) (p : Pool) :
    p.GrowsBy [] (fieldInfo f p).2 ∧ ((fieldInfo f p).2.Within C → FieldMade C f (fieldInfo f p).1) := by
  have hname : p.GrowsBy [] (p.put (.utf8 f.name)).2 := .single (.utf8 f.name)
  have hdesc : (p.put (.utf8 f.name)).2.GrowsBy [] ((p.put (.utf8 f.name)).2.put (.utf8 f.ty.descriptor)).2 :=
    .single (.utf8 f.ty.descriptor)
  simp only [fieldInfo]
  refine ⟨hname.trans hdesc, fun hw => ⟨rfl, ?_, ?_⟩⟩
  · exact Pool.has_of_put (.utf8 f.name) (hw.of_grows hdesc.grows)
  · exact Pool.has_of_put (.utf8 f.ty.descriptor) hw

/-- The part of a class file that a nesting relation became. -/
structure NestingMade (C : Constants) (n : Name) (m : Modifiers) (enclosing : Name) (info : InnerInfo) : Prop where
  inner : C.className? info.inner = some n.text
  outer : C.className? info.outer = some enclosing.text
  simpleName : C.utf8? info.simpleName = some n.simpleName
  access : info.access = m

theorem nesting_made (thisClass : UInt16) (outer : Name) (nested : ClassEntry) (p : Pool) :
    p.GrowsBy [] (nesting thisClass nested p).2 ∧
      ((nesting thisClass nested p).2.Within C → C.className? thisClass = some outer.text →
        NestingMade C nested.name nested.modifiers outer (nesting thisClass nested p).1) := by
  have hcls : p.GrowsBy [] (p.put (.cls nested.name.text)).2 := .single (.cls nested.name.text)
  have hname : (p.put (.cls nested.name.text)).2.GrowsBy []
      ((p.put (.cls nested.name.text)).2.put (.utf8 nested.name.simpleName)).2 := .single (.utf8 nested.name.simpleName)
  simp only [nesting]
  refine ⟨hcls.trans hname, fun hw hthis => ⟨?_, hthis, ?_, rfl⟩⟩
  · exact Pool.has_of_put (.cls nested.name.text) (hw.of_grows hname.grows)
  · exact Pool.has_of_put (.utf8 nested.name.simpleName) hw

theorem ownNesting_made (l : LoweredClass) (thisClass : UInt16) (p : Pool) :
    p.GrowsBy [] (l.ownNesting thisClass p).2 ∧
      ((l.ownNesting thisClass p).2.Within C → C.className? thisClass = some l.name.text →
        List.Forall₂ (NestingMade C l.name l.modifiers) l.enclosing.toList
          (l.ownNesting thisClass p).1) := by
  unfold ownNesting
  split
  · rename_i henc
    exact ⟨.refl p, fun _ _ => by rw [henc]; exact .nil⟩
  · rename_i outer henc
    have hcls : p.GrowsBy [] (p.put (.cls outer.text)).2 := .single (.cls outer.text)
    have hname : (p.put (.cls outer.text)).2.GrowsBy []
        ((p.put (.cls outer.text)).2.put (.utf8 l.name.simpleName)).2 := .single (.utf8 l.name.simpleName)
    simp only
    refine ⟨hcls.trans hname, fun hw hthis => ?_⟩
    rw [henc]
    refine .cons ⟨hthis, ?_, ?_, rfl⟩ .nil
    · exact Pool.has_of_put (.cls outer.text) (hw.of_grows hname.grows)
    · exact Pool.has_of_put (.utf8 l.name.simpleName) hw

/-! ## The whole class file -/

/-- A class file whose parts are those that a lowered class became. -/
structure Made (b : Binding) (r : Registry) (entry : ClassEntry) (l : LoweredClass) (f : ClassFile) : Prop where
  major : f.major = ClassFile.majorVersion
  size : f.constants.size ≤ Pool.maxEntries
  doubles : f.constants.doubles = holdAll [] l.doubles
  name : f.name? = some l.name.text
  superName : f.superName? = some l.superclass.text
  access : f.access = l.modifiers
  inner : ∃ own nested, f.inner = own ++ nested ∧
    List.Forall₂ (NestingMade f.constants l.name l.modifiers) l.enclosing.toList own ∧
    List.Forall₂ (fun (n : ClassEntry) info => NestingMade f.constants n.name n.modifiers l.name info)
      (r.classes.filter (·.enclosing = some l.name)) nested
  fields : List.Forall₂ (FieldMade f.constants) l.fields f.fields
  methods : List.Forall₂ (MethodMade b r entry f.constants) l.methods f.methods

/-- The class file of a class has the parts that the class became. -/
theorem assemble_made {l : LoweredClass} {f : ClassFile} (h : l.assemble b r entry = .ok f) : Made b r entry l f := by
  simp only [assemble] at h
  generalize hthis : Pool.empty.addClass l.name.text = this at h
  generalize hsuper : this.2.addClass l.superclass.text = super at h
  generalize hown : l.ownNesting this.1 super.2 = own at h
  generalize hnested : table (nesting this.1) (r.classes.filter (·.enclosing = some l.name)) own.2 = nested at h
  generalize hfields : table fieldInfo l.fields nested.2 = fields at h
  generalize hmethods : methodTable b r entry l.methods #[] #[] fields.2 = methods at h
  split at h
  · rename_i hnone
    cases h
    obtain ⟨hfound, hlimits⟩ := List.append_eq_nil_iff.1 hnone
    have hover : methods.2.overflowed = false := by
      simp only [limitErrors, List.append_eq_nil_iff] at hlimits
      simpa using hlimits.2
    -- The pools one after the other: each grows into the last, whose constants are those of the file.
    have g1 : Pool.empty.GrowsBy [] this.2 := by
      rw [← hthis]
      exact .single (.cls l.name.text)
    have g2 : this.2.GrowsBy [] super.2 := by
      rw [← hsuper]
      exact .single (.cls l.superclass.text)
    obtain ⟨g3, mown⟩ := ownNesting_made (C := methods.2.constants) l this.1 super.2
    obtain ⟨g4, mnested⟩ := table_made (C := methods.2.constants) (f := nesting this.1)
      (R := fun n info => Constants.className? methods.2.constants this.1 = some l.name.text →
        NestingMade methods.2.constants n.name n.modifiers l.name info) (nesting_made this.1 l.name)
      (r.classes.filter (·.enclosing = some l.name)) own.2
    obtain ⟨g5, mfields⟩ := table_made (C := methods.2.constants) fieldInfo_made l.fields nested.2
    obtain ⟨-, g6, mmethods⟩ := methodTable_made (C := methods.2.constants) (q := methods.2) hmethods hfound
    rw [hown] at g3 mown
    rw [hnested] at g4 mnested
    rw [hfields] at g5 mfields
    have hgrows := ((((g1.trans g2).trans g3).trans g4).trans g5).trans g6
    have hwf := hgrows.grows.wellFormed Pool.wellFormed_empty
    have w6 : methods.2.Within methods.2.constants := ⟨methods.2, .refl _, hwf, hover, rfl⟩
    have w5 := w6.of_grows g6.grows
    have w4 := w5.of_grows g5.grows
    have w3 := w4.of_grows g4.grows
    have w2 := w3.of_grows g3.grows
    have w1 := w2.of_grows g2.grows
    have hname : Constants.className? methods.2.constants this.1 = some l.name.text := by
      rw [← hthis] at w1 ⊢
      exact Pool.has_cls w1
    have hsuperName : Constants.className? methods.2.constants super.1 = some l.superclass.text := by
      rw [← hsuper] at w2 ⊢
      exact Pool.has_cls w2
    obtain ⟨infos, hinfos, hmade⟩ := mmethods w6
    have hdoubles := hgrows.doubles Pool.indexed_empty hover
    refine ⟨rfl, hwf.size, hdoubles, hname, hsuperName, rfl, ⟨own.1, nested.1.toList, rfl, mown w3 hname, ?_⟩, mfields w5, ?_⟩
    · exact (mnested w4).imp fun _ _ h => h hname
    · rw [hinfos]
      exact hmade
  · cases h

section Growth

variable {P : Item → Prop} (hcls : ∀ n : Name, P (.cls n.text)) (htext : ∀ s, P (.utf8 s))

theorem table_grows {α β : Type} {f : α → Pool → β × Pool} (hf : ∀ a (p : Pool), p.Grows P (f a p).2) (items : List α)
    (p : Pool) : p.Grows P (table f items p).2 := by
  induction items using List.reverseRecOn with
  | nil => exact .refl p
  | append_singleton items a ih =>
    rw [table_concat]
    exact ih.trans (hf a _)

include htext in
theorem methodTable_grows {ms : List LoweredMethod}
    (hcode : ∀ m ∈ ms, ∀ (p : Pool) mc q, compileMethod b (context r entry m) m p = .ok mc q → p.Grows P q)
    {done methods : Array MethodInfo} {found ds : Array Diagnostic} {p q : Pool}
    (h : methodTable b r entry ms done found p = ((methods, ds), q)) (hds : ds.toList = []) : p.Grows P q := by
  induction ms generalizing done found p with
  | nil =>
    cases h
    exact .refl _
  | cons m ms ih =>
    rw [methodTable] at h
    split at h
    · rename_i info p' heq
      obtain ⟨mc, p₁, hmc, heq⟩ := Gen.bind_ok_cases heq
      cases heq
      refine ((hcode m List.mem_cons_self _ mc p₁ hmc).trans ((Pool.Grows.single (htext m.name)).trans
        (.single (htext m.descriptor)))).trans ?_
      exact ih (fun m hm => hcode m (List.mem_cons_of_mem _ hm)) h
    · have hmore := (methodTable_made (C := #[]) h hds).1
      simp at hmore

include hcls htext

/-- The constants of a class file are those of a pool to which only names of classes, texts and what the code of the methods
names were added. -/
theorem assemble_grows {l : LoweredClass} {f : ClassFile} (h : l.assemble b r entry = .ok f)
    (hcode : ∀ m ∈ l.methods, ∀ (p : Pool) mc q, compileMethod b (context r entry m) m p = .ok mc q → p.Grows P q) :
    ∃ q, Pool.empty.Grows P q ∧ q.overflowed = false ∧ f.constants = q.constants := by
  simp only [assemble] at h
  generalize hown : l.ownNesting _ _ = own at h
  generalize hnested : table (nesting _) _ _ = nested at h
  generalize hfields : table fieldInfo _ _ = fields at h
  generalize hmethods : methodTable b r entry l.methods #[] #[] _ = methods at h
  split at h
  · rename_i hnone
    cases h
    obtain ⟨hfound, hlimits⟩ := List.append_eq_nil_iff.1 hnone
    have hover : methods.2.overflowed = false := by
      simp only [limitErrors, List.append_eq_nil_iff] at hlimits
      simpa using hlimits.2
    have gclass : ∀ (n : Name) (p : Pool), p.Grows P (p.addClass n.text).2 := fun n _ => .single (hcls n)
    have gtext : ∀ (s : String) (p : Pool), p.Grows P (p.addUtf8 s).2 := fun s _ => .single (htext s)
    have gown : ∀ i (p : Pool), p.Grows P (l.ownNesting i p).2 := by
      intro i p
      unfold ownNesting
      split
      · exact .refl p
      · exact (gclass _ _).trans (gtext _ _)
    have gnested := fun i items p => table_grows (f := nesting i) (fun e p => (gclass e.name p).trans (gtext _ _)) items p
    have gfields := fun items p => table_grows (f := fieldInfo) (fun x p => (gtext x.name p).trans (gtext _ _)) items p
    have gmethods := methodTable_grows htext hcode (q := methods.2) hmethods hfound
    rw [← hfields, ← hnested, ← hown] at gmethods
    refine ⟨methods.2, ?_, hover, rfl⟩
    exact (((((gclass _ _).trans (gclass _ _)).trans (gown _ _)).trans (gnested _ _ _)).trans (gfields _ _)).trans gmethods
  · cases h

end Growth

theorem generate_eq_ok {b : Binding} {r : Registry} {low : LoweredClass} {bytes : Bytes}
    (h : low.generate b r = .ok bytes) :
    ∃ entry f, r.get? low.name = some entry ∧ low.assemble b r entry = .ok f ∧ f.encode = .ok bytes := by
  unfold generate at h
  split at h
  · cases h
  · rename_i entry hentry
    obtain ⟨f, hf, h⟩ := bind_eq_ok.1 h
    split at h
    · rename_i hencode
      cases h
      exact ⟨entry, f, hentry, hf, hencode⟩
    · cases h

end LoweredClass

end ClassTree
