import Mathlib.Data.List.Nodup
import Mathlib.Data.List.Perm.Basic
import Mathlib.Logic.Relation
import ClassTree.Proofs.Typing.Chosen
import ClassTree.Registry.Inheritance

/-!
# Superclass chains

`Registry.Extends r a b`: the registered class `a` names `b` as its superclass. The inheritance graph finds every cycle of these
links (`Registry.not_reaches_of_isCyclic`), because the search for the classes that a class inherits from follows every link
before its fuel is used up (`Inheritance.visit_closed`).

Without cycles the chain of a class is the class followed by the chain of its superclass (`Acyclic.chain_eq`), so the chain of
whatever it inherits from is an end of its own chain (`Acyclic.chain_of_isSubclassOf`). The methods that a class has or inherits
are the first of their parameters in its chain (`filter_findMethods`).
-/

namespace ClassTree

/-! ## The search for inherited classes -/

namespace Inheritance

variable {g : Inheritance}

/-- A class that is expanded takes its links out of those that are still to be followed. -/
theorem countP_parents {n : Name} {seen : List Name} (hn : n ∉ seen) :
    g.edges.countP (·.1 ∉ seen) = (g.parents n).length + g.edges.countP (·.1 ∉ n :: seen) := by
  rw [parents]
  induction g.edges with
  | nil => rfl
  | cons edge edges ih =>
    obtain ⟨a, b⟩ := edge
    simp only [List.countP_cons, List.filterMap_cons, ih]
    by_cases ha : a = n
    · subst ha
      simp [hn]
      omega
    · simp [ha]
      omega

/-- With fuel for all classes to visit and all links to follow, the search finds all that can be reached. -/
theorem visit_closed : ∀ (fuel : Nat) (todo seen : List Name),
    todo.length + g.edges.countP (·.1 ∉ seen) ≤ fuel →
      (∀ n, n ∈ todo ∨ n ∈ seen → n ∈ g.visit fuel todo seen) ∧
        ∀ n ∈ g.visit fuel todo seen, n ∉ seen → ∀ m ∈ g.parents n, m ∈ g.visit fuel todo seen := by
  intro fuel
  induction fuel with
  | zero =>
    intro todo seen hfuel
    have htodo : todo = [] := List.length_eq_zero_iff.1 (by omega)
    subst htodo
    rw [visit]
    exact ⟨fun n hn => hn.resolve_left List.not_mem_nil, fun n hn hnot => absurd hn hnot⟩
  | succ fuel ih =>
    intro todo seen hfuel
    cases todo with
    | nil =>
      rw [visit]
      exact ⟨fun n hn => hn.resolve_left List.not_mem_nil, fun n hn hnot => absurd hn hnot⟩
    | cons x todo =>
      rw [visit]
      rw [List.length_cons] at hfuel
      split
      · rename_i hx
        obtain ⟨hfound, hclosed⟩ := ih todo seen (by omega)
        refine ⟨fun n hn => ?_, hclosed⟩
        rcases hn with hn | hn
        · rcases List.mem_cons.1 hn with rfl | hn
          · exact hfound n (.inr hx)
          · exact hfound n (.inl hn)
        · exact hfound n (.inr hn)
      · rename_i hx
        have hcount := g.countP_parents hx
        obtain ⟨hfound, hclosed⟩ := ih (g.parents x ++ todo) (x :: seen) (by rw [List.length_append]; omega)
        refine ⟨fun n hn => ?_, fun n hn hnot m hm => ?_⟩
        · rcases hn with hn | hn
          · rcases List.mem_cons.1 hn with rfl | hn
            · exact hfound n (.inr List.mem_cons_self)
            · exact hfound n (.inl (List.mem_append_right _ hn))
          · exact hfound n (.inr (List.mem_cons_of_mem _ hn))
        · by_cases hnx : n = x
          · subst hnx
            exact hfound m (.inl (List.mem_append_left _ hm))
          · exact hclosed n hn (by simp [hnx, hnot]) m hm

/-- Whatever a class reaches by one or more links is among the classes that it inherits from. -/
theorem mem_ancestors {n m : Name} (h : Relation.TransGen (fun a b => b ∈ g.parents a) n m) : m ∈ g.ancestors n := by
  have hfuel : (g.parents n).length + g.edges.countP (·.1 ∉ ([] : List Name)) ≤ (g.parents n).length + g.edges.length :=
    Nat.add_le_add_left List.countP_le_length _
  obtain ⟨hfound, hclosed⟩ := visit_closed _ _ _ hfuel
  induction h with
  | single hm => exact hfound _ (.inl hm)
  | tail _ hm ih => exact hclosed _ ih List.not_mem_nil _ hm

end Inheritance

namespace Registry

variable {r : Registry} {n : Name} {e : ClassEntry}

/-! ## Superclass links -/

/-- The registered class `a` names `b` as its superclass. -/
def Extends (r : Registry) (a b : Name) : Prop := (r.get? a).bind (·.superclass) = some b

/-- No registered class inherits from itself. -/
def Acyclic (r : Registry) : Prop := ∀ n, ¬ Relation.TransGen r.Extends n n

/-- If names are distinct, every class is found under its name. -/
theorem get?_of_mem (hnodup : (r.classes.map (·.name)).Nodup) (he : e ∈ r.classes) : r.get? e.name = some e := by
  cases hfound : r.get? e.name with
  | none => exact absurd (List.find?_eq_none.1 hfound e he) (by simp)
  | some e' =>
    obtain ⟨he', hname⟩ := get?_eq_some hfound
    exact congrArg some (List.inj_on_of_nodup_map hnodup he' he hname)

/-- If names are distinct, the only class that a class extends directly is its superclass. -/
theorem parents_inheritance (hnodup : (r.classes.map (·.name)).Nodup) (n : Name) :
    r.inheritance.parents n = ((r.get? n).bind (·.superclass)).toList := by
  obtain ⟨classes⟩ := r
  rw [inheritance, Inheritance.parents, get?, List.filterMap_filterMap]
  induction classes with
  | nil => rfl
  | cons c cs ih =>
    rw [List.map_cons, List.nodup_cons] at hnodup
    specialize ih hnodup.2
    by_cases hc : c.name = n
    · subst hc
      have hnone : cs.find? (·.name = c.name) = none := by
        refine List.find?_eq_none.2 fun c' hc' heq => hnodup.1 ?_
        rw [← of_decide_eq_true heq]
        exact List.mem_map_of_mem hc'
      rw [hnone] at ih
      cases hs : c.superclass <;> simp_all
    · cases hs : c.superclass <;> simp_all

/-- A class that inherits from itself is found to be cyclic. -/
theorem not_reaches_of_isCyclic (hnodup : (r.classes.map (·.name)).Nodup) (h : r.inheritance.isCyclic n = false) :
    ¬ Relation.TransGen r.Extends n n := by
  intro hcycle
  have hparent : ∀ a b, r.Extends a b → b ∈ r.inheritance.parents a := by
    intro a b hab
    rw [parents_inheritance hnodup, hab]
    exact List.mem_singleton_self b
  have hmem := Inheritance.mem_ancestors (g := r.inheritance) (Relation.TransGen.mono hparent n n hcycle)
  simp only [Inheritance.isCyclic, decide_eq_false_iff_not] at h
  exact h hmem

/-! ## Chains -/

/-- Following the superclass links from a class leads over these entries, and ends. -/
inductive Line (r : Registry) : Name → List ClassEntry → Prop
  | unregistered {n : Name} : r.get? n = none → Line r n []
  | root {n : Name} {e : ClassEntry} : r.get? n = some e → e.superclass = none → Line r n [e]
  | step {n s : Name} {e : ClassEntry} {es : List ClassEntry} :
    r.get? n = some e → e.superclass = some s → Line r s es → Line r n (e :: es)

theorem Line.unique {es es' : List ClassEntry} (h : r.Line n es) (h' : r.Line n es') : es = es' := by
  induction h generalizing es' with
  | unregistered hn =>
    cases h' with
    | unregistered => rfl
    | root hn' | step hn' => rw [hn] at hn'; cases hn'
  | root hn hs =>
    cases h' with
    | unregistered hn' => rw [hn] at hn'; cases hn'
    | root hn' hs' => rw [hn] at hn'; cases hn'; rfl
    | step hn' hs' =>
      rw [hn] at hn'
      cases hn'
      rw [hs] at hs'
      cases hs'
  | step hn hs _ ih =>
    cases h' with
    | unregistered hn' => rw [hn] at hn'; cases hn'
    | root hn' hs' =>
      rw [hn] at hn'
      cases hn'
      rw [hs] at hs'
      cases hs'
    | step hn' hs' hrest =>
      rw [hn] at hn'
      cases hn'
      rw [hs] at hs'
      cases hs'
      rw [ih hrest]

/-- Once as many registered classes have been seen as there are, all have been seen. -/
theorem mem_of_length_le {seen : List Name} (hnodup : seen.Nodup) (hregistered : ∀ x ∈ seen, r.contains x = true)
    (hlength : r.classes.length ≤ seen.length) (hn : r.contains n = true) : n ∈ seen := by
  have hname : ∀ x, r.contains x = true → x ∈ r.classes.map (·.name) := by
    intro x hx
    obtain ⟨e, he⟩ := Option.isSome_iff_exists.1 hx
    exact List.mem_map.2 ⟨e, get?_eq_some he⟩
  have hperm : seen.Perm (r.classes.map (·.name)) :=
    (List.subperm_of_subset hnodup fun x hx => hname x (hregistered x hx)).perm_of_length_le (by rwa [List.length_map])
  exact hperm.mem_iff.2 (hname n hn)

/-- Without cycles the chain of a class is all that following the links leads over. -/
theorem Acyclic.line_chain (h : r.Acyclic) (n : Name) : r.Line n (r.chain n) := by
  -- All classes seen so far lead to the class at hand, so it is none of them, and there is fuel for those not yet seen.
  have hfrom : ∀ (fuel : Nat) (seen : List Name) (n : Name), seen.Nodup → (∀ x ∈ seen, r.contains x = true) →
      (∀ x ∈ seen, Relation.TransGen r.Extends x n) → r.classes.length ≤ fuel + seen.length →
      r.Line n (r.chainFrom fuel seen n) := by
    intro fuel
    induction fuel with
    | zero =>
      intro seen n hnodup hregistered hleads hfuel
      rw [chainFrom]
      refine .unregistered ?_
      cases hn : r.get? n with
      | none => rfl
      | some e =>
        have hmem : n ∈ seen := mem_of_length_le hnodup hregistered (by omega) (by rw [contains, hn]; rfl)
        exact absurd (hleads n hmem) (h n)
    | succ fuel ih =>
      intro seen n hnodup hregistered hleads hfuel
      rw [chainFrom]
      split
      · rename_i hn
        exact .unregistered hn
      · rename_i e hn
        have hnew : n ∉ seen := fun hmem => h n (hleads n hmem)
        rw [if_neg hnew]
        split
        · rename_i hs
          exact .root hn hs
        · rename_i s hs
          have hlink : r.Extends n s := by rw [Extends, hn]; exact hs
          refine .step hn hs (ih _ _ (List.nodup_cons.2 ⟨hnew, hnodup⟩) ?_ ?_ ?_)
          · intro x hx
            rcases List.mem_cons.1 hx with rfl | hx
            · rw [contains, hn]
              rfl
            · exact hregistered x hx
          · intro x hx
            rcases List.mem_cons.1 hx with rfl | hx
            · exact .single hlink
            · exact (hleads x hx).tail hlink
          · rw [List.length_cons]
            omega
  exact hfrom _ [] n .nil (by simp) (by simp) (by simp)

/-- Without cycles the chain of a class is the class followed by the chain of its superclass. -/
theorem Acyclic.chain_eq (h : r.Acyclic) (hn : r.get? n = some e) :
    r.chain n = e :: match e.superclass with
      | none => []
      | some s => r.chain s := by
  refine (h.line_chain n).unique ?_
  split
  · rename_i hs
    exact .root hn hs
  · rename_i s hs
    exact .step hn hs (h.line_chain s)

/-- From each class on a line the rest of it is the line of that class. -/
theorem Line.exists_suffix {es : List ClassEntry} (h : r.Line n es) (he : e ∈ es) : ∃ rest, r.Line e.name rest ∧ rest <:+ es := by
  induction h with
  | unregistered hn => cases he
  | root hn hs =>
    obtain rfl := List.mem_singleton.1 he
    obtain rfl := (get?_eq_some hn).2
    exact ⟨_, .root hn hs, List.suffix_rfl⟩
  | step hn hs hrest ih =>
    rcases List.mem_cons.1 he with rfl | he
    · obtain rfl := (get?_eq_some hn).2
      exact ⟨_, .step hn hs hrest, List.suffix_rfl⟩
    · obtain ⟨rest, hline, hsuffix⟩ := ih he
      exact ⟨rest, hline, hsuffix.trans (List.suffix_cons _ _)⟩

/-- Without cycles the chain of a class that another inherits from ends the chain of that class. -/
theorem Acyclic.chain_of_isSubclassOf (h : r.Acyclic) {sub sup : Name} (hsub : r.isSubclassOf sub sup = true) :
    r.chain sup <:+ r.chain sub := by
  obtain ⟨e, he, rfl⟩ : ∃ e ∈ r.chain sub, e.name = sup := by
    simpa [isSubclassOf, distance?] using hsub
  obtain ⟨rest, hline, hsuffix⟩ := (h.line_chain sub).exists_suffix he
  rw [(h.line_chain e.name).unique hline]
  exact hsuffix

/-! ## Methods -/

/-- The first method of a name and of these parameters in a chain. -/
def firstMethod? (chain : List ClassEntry) (name : String) (params : List Ty) : Option MethodEntry :=
  (chain.flatMap (·.ownMethods name)).find? (·.params = params)

theorem firstMethod?_eq_some {chain : List ClassEntry} {name : String} {params : List Ty} {m : MethodEntry}
    (h : firstMethod? chain name params = some m) :
    (∃ e ∈ chain, m ∈ e.methods) ∧ m.name = name ∧ m.params = params := by
  obtain ⟨e, he, hm⟩ := List.mem_flatMap.1 (List.mem_of_find?_eq_some h)
  obtain ⟨hm, hname⟩ := List.mem_filter.1 hm
  exact ⟨⟨e, he, hm⟩, by simpa using hname, by simpa using List.find?_some h⟩

theorem filter_foldl_addVisible (params : List Ty) (ms found : List MethodEntry) :
    (ms.foldl addVisible found).filter (·.params = params) =
      found.filter (·.params = params) ++
        if found.any (·.params = params) then [] else (ms.find? (·.params = params)).toList := by
  induction ms generalizing found with
  | nil => simp
  | cons m ms ih =>
    rw [List.foldl_cons, ih, addVisible]
    by_cases hm : m.params = params
    · subst hm
      cases hany : found.any (·.params = m.params) with
      | true => simp [hany]
      | false => simp [hany]
    · split <;> simp [hm]

/-- Of the methods that a class has or inherits, those of given parameters are the first of them in its chain. -/
theorem filter_findMethods (name : String) (params : List Ty) :
    (r.findMethods n name).filter (·.params = params) = (firstMethod? (r.chain n) name params).toList := by
  rw [findMethods, filter_foldl_addVisible]
  simp [firstMethod?]

end Registry

end ClassTree
