import Mathlib.Order.Bounds.Basic
import ClassTree.Proofs.Registry.Chain

/-!
# Distances in any registry

Superclass links may form cycles, and may lead to classes that are not registered. In every registry the chain of a class
holds exactly the registered classes that links lead to, each once (`Registry.mem_chain_iff`, `Registry.nodup_chain`), and
the entry at a place of the chain is as many links up as the place says (`Registry.climbs_of_getElem?_chain`).

So the distance of two classes is the least number of links that lead from one to the other
(`Registry.distance?_eq_some_iff`). Distances are subadditive, because ways up can be joined (`Registry.distance?_trans`),
and without cycles they add up, because there is one way up at most (`Registry.Acyclic.distance?_add`).
-/

namespace ClassTree.Registry

variable {r : Registry} {a b c n : Name} {e : ClassEntry} {i k l : Nat}

/-! ## Ways up -/

/-- So many superclass links lead from one class to another. -/
inductive Climbs (r : Registry) : Nat → Name → Name → Prop
  | refl {a : Name} : Climbs r 0 a a
  | step {k : Nat} {a s b : Name} : r.Extends a s → Climbs r k s b → Climbs r (k + 1) a b

theorem Climbs.trans (h : r.Climbs k a b) (h' : r.Climbs l b c) : r.Climbs (k + l) a c := by
  induction h with
  | refl => rwa [Nat.zero_add]
  | step hs _ ih =>
    rw [Nat.add_right_comm]
    exact .step hs (ih h')

/-- Links lead nowhere else: a class has one superclass at most. -/
theorem Climbs.unique (h : r.Climbs k a b) (h' : r.Climbs k a c) : b = c := by
  induction h with
  | refl =>
    cases h'
    rfl
  | step hs _ ih =>
    cases h' with
    | step hs' hrest =>
      obtain rfl := Option.some.inj (hs.symm.trans hs')
      exact ih hrest

/-- What is left of a way up after its first links. -/
theorem Climbs.drop (h : r.Climbs (k + l) a c) (h' : r.Climbs k a b) : r.Climbs l b c := by
  induction h' with
  | refl => rwa [Nat.zero_add] at h
  | step hs _ ih =>
    rw [Nat.add_right_comm] at h
    cases h with
    | step hs' hrest =>
      obtain rfl := Option.some.inj (hs.symm.trans hs')
      exact ih hrest

theorem exists_climbs_iff : (∃ k, r.Climbs k a b) ↔ Relation.ReflTransGen r.Extends a b := by
  constructor
  · rintro ⟨k, h⟩
    induction h with
    | refl => exact .refl
    | step hs _ ih => exact .head hs ih
  · intro h
    induction h using Relation.ReflTransGen.head_induction_on with
    | refl => exact ⟨0, .refl⟩
    | head hs _ ih =>
      obtain ⟨k, hk⟩ := ih
      exact ⟨k + 1, .step hs hk⟩

/-- Without cycles no links lead from a class to itself. -/
theorem Acyclic.eq_zero_of_climbs (h : r.Acyclic) (hk : r.Climbs k a a) : k = 0 := by
  cases hk with
  | refl => rfl
  | step hs hrest => exact absurd (Relation.TransGen.head' hs (exists_climbs_iff.1 ⟨_, hrest⟩)) (h a)

/-- Without cycles there is one way up at most. -/
theorem Acyclic.climbs_unique (h : r.Acyclic) (hk : r.Climbs k a b) (hl : r.Climbs l a b) : k = l := by
  rcases Nat.le_total k l with hle | hle
  · obtain ⟨d, rfl⟩ := Nat.exists_eq_add_of_le hle
    rw [h.eq_zero_of_climbs (hl.drop hk), Nat.add_zero]
  · obtain ⟨d, rfl⟩ := Nat.exists_eq_add_of_le hle
    rw [h.eq_zero_of_climbs (hk.drop hl), Nat.add_zero]

/-! ## Chains -/

/-- A class that was seen does not come again, and no other comes twice. -/
theorem nodup_chainFrom (fuel : Nat) (seen : List Name) (n : Name) :
    ((r.chainFrom fuel seen n).map (·.name)).Nodup ∧ ∀ e ∈ r.chainFrom fuel seen n, e.name ∉ seen := by
  induction fuel generalizing seen n with
  | zero => simp [chainFrom]
  | succ fuel ih =>
    rw [chainFrom]
    split
    · simp
    · rename_i e hn
      obtain ⟨-, rfl⟩ := get?_eq_some hn
      split
      · simp
      · rename_i hnew
        cases hs : e.superclass with
        | none => simpa using hnew
        | some s =>
          obtain ⟨hnodup, hfresh⟩ := ih (e.name :: seen) s
          refine ⟨List.nodup_cons.2 ⟨fun hmem => ?_, hnodup⟩, List.forall_mem_cons.2 ⟨hnew, fun e' he' hmem => ?_⟩⟩
          · obtain ⟨e', he', heq⟩ := List.mem_map.1 hmem
            exact hfresh e' he' (heq ▸ List.mem_cons_self)
          · exact hfresh e' he' (List.mem_cons_of_mem _ hmem)

theorem climbs_of_getElem?_chainFrom {fuel : Nat} {seen : List Name} (h : (r.chainFrom fuel seen n)[i]? = some e) :
    r.get? e.name = some e ∧ r.Climbs i n e.name := by
  induction fuel generalizing seen n i with
  | zero => simp [chainFrom] at h
  | succ fuel ih =>
    rw [chainFrom] at h
    split at h
    · simp at h
    · rename_i e' hn
      split at h
      · simp at h
      · cases i with
        | zero =>
          obtain rfl : e' = e := Option.some.inj h
          rw [(get?_eq_some hn).2]
          exact ⟨hn, .refl⟩
        | succ i =>
          rw [List.getElem?_cons_succ] at h
          split at h
          · simp at h
          · rename_i s hs
            obtain ⟨hget, hclimbs⟩ := ih h
            exact ⟨hget, .step (by rw [Extends, hn]; exact hs) hclimbs⟩

/-- With fuel for all classes that have not been seen, following the links ends only where they lead to nothing that is
registered and new. -/
theorem chainFrom_closed {fuel : Nat} {seen : List Name} (hnodup : seen.Nodup)
    (hregistered : ∀ x ∈ seen, r.contains x = true) (hfuel : r.classes.length ≤ fuel + seen.length) {m : Name}
    (hm : m = n ∨ ∃ e ∈ r.chainFrom fuel seen n, e.superclass = some m) (hcontains : r.contains m = true) :
    m ∈ seen ∨ m ∈ (r.chainFrom fuel seen n).map (·.name) := by
  induction fuel generalizing seen n with
  | zero => exact .inl (mem_of_length_le hnodup hregistered (by omega) hcontains)
  | succ fuel ih =>
    rw [chainFrom] at hm ⊢
    cases hn : r.get? n with
    | none =>
      simp only [hn, List.not_mem_nil, false_and, exists_false, or_false] at hm
      rw [hm, contains, hn] at hcontains
      cases hcontains
    | some e =>
      simp only [hn] at hm ⊢
      obtain ⟨-, rfl⟩ := get?_eq_some hn
      by_cases hseen : e.name ∈ seen
      · simp only [hseen, if_true, List.not_mem_nil, false_and, exists_false, or_false] at hm
        exact .inl (hm ▸ hseen)
      · simp only [hseen, if_false, List.mem_cons, exists_eq_or_imp, List.map_cons] at hm ⊢
        cases hs : e.superclass with
        | none =>
          simp only [hs, reduceCtorEq, List.not_mem_nil, false_and, exists_false, or_false] at hm
          exact .inr (.inl hm)
        | some s =>
          simp only [hs, Option.some.injEq] at hm ⊢
          have hnext : m = e.name ∨ m ∈ e.name :: seen ∨ m ∈ (r.chainFrom fuel (e.name :: seen) s).map (·.name) := by
            rcases hm with hm | hm
            · exact .inl hm
            · refine .inr (ih (List.nodup_cons.2 ⟨hseen, hnodup⟩) ?_ (by rw [List.length_cons]; omega) (hm.imp_left Eq.symm))
              refine List.forall_mem_cons.2 ⟨?_, hregistered⟩
              rw [contains, hn]
              rfl
          rw [List.mem_cons] at hnext
          tauto

theorem nodup_chain (r : Registry) (n : Name) : ((r.chain n).map (·.name)).Nodup := (nodup_chainFrom _ [] n).1

/-- The entry at a place of the chain is as many links up as the place says. -/
theorem climbs_of_getElem?_chain (h : (r.chain n)[i]? = some e) : r.get? e.name = some e ∧ r.Climbs i n e.name :=
  climbs_of_getElem?_chainFrom h

/-- The chain of a class holds the entries of the registered classes that links lead to. -/
theorem mem_chain_iff : e ∈ r.chain n ↔ r.get? e.name = some e ∧ Relation.ReflTransGen r.Extends n e.name := by
  constructor
  · intro h
    obtain ⟨i, hi⟩ := List.mem_iff_getElem?.1 h
    obtain ⟨hget, hclimbs⟩ := climbs_of_getElem?_chain hi
    exact ⟨hget, exists_climbs_iff.1 ⟨i, hclimbs⟩⟩
  · rintro ⟨hget, hreach⟩
    have hclosed : ∀ m, (m = n ∨ ∃ e ∈ r.chain n, e.superclass = some m) → r.contains m = true →
        m ∈ (r.chain n).map (·.name) := fun m hm hcontains =>
      (chainFrom_closed .nil (by simp) (Nat.le_refl _) hm hcontains).resolve_left List.not_mem_nil
    -- Every class on the way is registered, as it has a superclass, and so it is in the chain.
    have hall : ∀ m, Relation.ReflTransGen r.Extends n m → r.contains m = true → m ∈ (r.chain n).map (·.name) := by
      intro m hreach
      induction hreach with
      | refl => exact hclosed n (.inl rfl)
      | @tail x m _ hxm ih =>
        obtain ⟨e', he', hs⟩ := Option.bind_eq_some_iff.1 hxm
        obtain ⟨e'', hmem, hname⟩ := List.mem_map.1 (ih (by rw [contains, he']; rfl))
        obtain ⟨i, hi⟩ := List.mem_iff_getElem?.1 hmem
        have hsame := (climbs_of_getElem?_chain hi).1
        rw [hname, he', Option.some.injEq] at hsame
        exact hclosed m (.inr ⟨e'', hmem, hsame ▸ hs⟩)
    obtain ⟨e', hmem, hname⟩ := List.mem_map.1 (hall e.name hreach (by rw [contains, hget]; rfl))
    obtain ⟨i, hi⟩ := List.mem_iff_getElem?.1 hmem
    have hsame := (climbs_of_getElem?_chain hi).1
    rw [hname, hget, Option.some.injEq] at hsame
    rwa [hsame]

/-! ## Distances -/

theorem isLeast_of_distance? (h : r.distance? a b = some k) : r.contains b = true ∧ IsLeast {l | r.Climbs l a b} k := by
  obtain ⟨hk, hname, hbefore⟩ := List.findIdx?_eq_some_iff_getElem.1 h
  obtain ⟨hget, hclimbs⟩ := climbs_of_getElem?_chain (List.getElem?_eq_getElem hk)
  rw [decide_eq_true_eq] at hname
  rw [hname] at hget hclimbs
  refine ⟨by rw [contains, hget]; rfl, hclimbs, fun l hl => ?_⟩
  -- A shorter way would have put the class at an earlier place of the chain.
  by_contra hlt
  have hlk : l < k := by omega
  refine hbefore l hlk (decide_eq_true ?_)
  exact (climbs_of_getElem?_chain (List.getElem?_eq_getElem (hlk.trans hk))).2.unique hl

/-- Where links lead to a registered class there is a distance. -/
theorem exists_distance?_le (hb : r.contains b = true) (h : r.Climbs l a b) : ∃ k ≤ l, r.distance? a b = some k := by
  obtain ⟨e, he⟩ := Option.isSome_iff_exists.1 hb
  obtain ⟨-, rfl⟩ := get?_eq_some he
  have hsome : (r.distance? a e.name).isSome = true := by
    rw [distance?, List.findIdx?_isSome, List.any_eq_true]
    exact ⟨e, mem_chain_iff.2 ⟨he, exists_climbs_iff.1 ⟨l, h⟩⟩, decide_eq_true rfl⟩
  obtain ⟨k, hk⟩ := Option.isSome_iff_exists.1 hsome
  exact ⟨k, (isLeast_of_distance? hk).2.2 h, hk⟩

/-- The distance is the least number of links that lead to a registered class. -/
theorem distance?_eq_some_iff :
    r.distance? a b = some k ↔ r.contains b = true ∧ IsLeast {l | r.Climbs l a b} k := by
  refine ⟨isLeast_of_distance?, fun ⟨hb, hleast⟩ => ?_⟩
  obtain ⟨l, -, hl⟩ := exists_distance?_le hb hleast.1
  rw [hl, hleast.unique (isLeast_of_distance? hl).2]

/-- Only a class itself is at no distance. -/
theorem eq_of_distance?_eq_zero (h : r.distance? a b = some 0) : a = b :=
  Climbs.unique .refl (isLeast_of_distance? h).2.1

theorem distance?_trans (hab : r.distance? a b = some k) (hbc : r.distance? b c = some l) :
    ∃ m ≤ k + l, r.distance? a c = some m := by
  obtain ⟨-, hk⟩ := isLeast_of_distance? hab
  obtain ⟨hc, hl⟩ := isLeast_of_distance? hbc
  exact exists_distance?_le hc (hk.1.trans hl.1)

/-- Without cycles distances add up. -/
theorem Acyclic.distance?_add (h : r.Acyclic) (hab : r.distance? a b = some k) (hbc : r.distance? b c = some l) :
    r.distance? a c = some (k + l) := by
  obtain ⟨-, hk⟩ := isLeast_of_distance? hab
  obtain ⟨hc, hl⟩ := isLeast_of_distance? hbc
  have hkl : r.Climbs (k + l) a c := hk.1.trans hl.1
  exact distance?_eq_some_iff.2 ⟨hc, hkl, fun m hm => (h.climbs_unique hkl hm).le⟩

end ClassTree.Registry
