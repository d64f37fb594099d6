import ClassTree.Proofs.Registry.Assignable

/-!
# The choice among overloads

A call costs what the conversions of its arguments cost together (`Registry.Costs`), and its total is that cost in 32 bits
(`Registry.Totals`). Choosing sorts out the candidates of least total and looks at how many there are (`Registry.select_eq`), so
that the choice does not depend on the order of the candidates. A candidate whose parameters are the types of the arguments is
chosen, because no other conversion is for free, unless the costs of another add up to a multiple of `2 ^ 32`
(`Registry.select_exact`).
-/

namespace ClassTree.Registry

variable {r : Registry} {ms ms' best : List MethodEntry} {args params : List Ty} {m : MethodEntry} {k l : Nat}
  {t u : UInt32}

/-! ## The cost of a call -/

/-- Every argument converts to the parameter at its place, and the costs of the conversions add up. -/
inductive Costs (r : Registry) : List Ty → List Ty → Nat → Prop
  | nil : Costs r [] [] 0
  | cons {a p : Ty} {args params : List Ty} {k l : Nat} :
    r.conversionCost a p = some k → Costs r args params l → Costs r (a :: args) (p :: params) (k + l)

theorem Costs.length_eq (h : r.Costs args params k) : args.length = params.length := by
  induction h with
  | nil => rfl
  | cons _ _ ih => rw [List.length_cons, List.length_cons, ih]

/-- A call has a cost iff every argument may stand where the parameter at its place is expected. -/
theorem exists_costs_iff : (∃ k, r.Costs args params k) ↔ List.Forall₂ (fun a p => r.isAssignable a p = true) args params := by
  constructor
  · rintro ⟨k, h⟩
    induction h with
    | nil => exact .nil
    | cons ha _ ih => exact .cons (by rw [isAssignable, ha]; rfl) ih
  · intro h
    induction h with
    | nil => exact ⟨0, .nil⟩
    | cons ha _ ih =>
      obtain ⟨k, hk⟩ := Option.isSome_iff_exists.1 ha
      obtain ⟨l, hl⟩ := ih
      exact ⟨k + l, .cons hk hl⟩

/-- What the conversions cost together, counted in 32 bits. -/
def Totals (r : Registry) (args params : List Ty) (t : UInt32) : Prop := ∃ k, r.Costs args params k ∧ UInt32.ofNat k = t

theorem exists_totals_iff :
    (∃ t, r.Totals args params t) ↔ List.Forall₂ (fun a p => r.isAssignable a p = true) args params := by
  rw [← exists_costs_iff]
  exact ⟨fun ⟨_, k, hk, _⟩ => ⟨k, hk⟩, fun ⟨k, hk⟩ => ⟨_, k, hk, rfl⟩⟩

/-- Adding up from left to right gives the total of the call. -/
theorem callCost_eq_some_iff : r.callCost args params = some t ↔ r.Totals args params t := by
  have hfold : ∀ (args params : List Ty) (total t : UInt32), params.length = args.length →
      ((args.zip params).foldlM (fun total x => (r.conversionCost x.1 x.2).map (total + .ofNat ·)) total = some t ↔
        ∃ l, r.Costs args params l ∧ total + .ofNat l = t) := by
    intro args
    induction args with
    | nil =>
      intro params total t hlength
      obtain rfl := List.length_eq_zero_iff.1 hlength
      constructor
      · intro h
        exact ⟨0, .nil, (UInt32.add_zero total).trans (Option.some.inj h)⟩
      · rintro ⟨l, hl, rfl⟩
        cases hl
        exact congrArg some (UInt32.add_zero total).symm
    | cons a args ih =>
      intro params total t hlength
      obtain ⟨p, params, rfl⟩ := List.exists_cons_of_length_eq_add_one hlength
      rw [List.zip_cons_cons, List.foldlM_cons]
      cases ha : r.conversionCost a p with
      | none =>
        refine ⟨fun h => (nomatch h), ?_⟩
        rintro ⟨l, hl, -⟩
        cases hl with
        | cons hk _ => rw [ha] at hk; cases hk
      | some x =>
        refine (ih params (total + .ofNat x) t (by simpa using hlength)).trans ⟨?_, ?_⟩
        · rintro ⟨l, hl, rfl⟩
          exact ⟨x + l, .cons ha hl, by rw [UInt32.ofNat_add, UInt32.add_assoc]⟩
        · rintro ⟨l, hl, rfl⟩
          cases hl with
          | @cons _ _ _ _ y z hy hz =>
            obtain rfl : x = y := Option.some.inj (ha.symm.trans hy)
            exact ⟨z, hz, by rw [UInt32.ofNat_add, UInt32.add_assoc]⟩
  unfold callCost
  split
  · rename_i hlength
    refine (hfold args params 0 t hlength).trans ?_
    simp [Totals]
  · rename_i hlength
    refine ⟨fun h => (nomatch h), ?_⟩
    rintro ⟨k, hk, -⟩
    exact absurd hk.length_eq.symm hlength

/-- Only the types of the parameters themselves are passed for free. -/
theorem Costs.eq_of_zero (h : r.Costs args params 0) : args = params := by
  generalize hk : 0 = k at h
  induction h with
  | nil => rfl
  | @cons a p args params k l ha _ ih =>
    obtain ⟨rfl, rfl⟩ := Nat.add_eq_zero_iff.1 hk.symm
    rw [ih rfl]
    cases conversionCost_eq_some_iff.1 ha with
    | same => rfl
    | up hne hdistance => exact absurd (eq_of_distance?_eq_zero hdistance) hne

theorem costs_self (h : ∀ t ∈ args, t ≠ .void) : r.Costs args args 0 := by
  induction args with
  | nil => exact .nil
  | cons t args ih =>
    rw [List.forall_mem_cons] at h
    exact .cons (conversionCost_eq_some_iff.2 (.same h.1)) (ih h.2)

/-! ## Candidates of least cost -/

/-- A candidate that the arguments can be passed to, and to no other candidate for a lower total. -/
def Cheapest (r : Registry) (ms : List MethodEntry) (args : List Ty) (m : MethodEntry) : Prop :=
  ∃ t, r.Totals args m.params t ∧ ∀ m' ∈ ms, ∀ u, r.Totals args m'.params u → t ≤ u

theorem cheapest_iff_callCost : r.Cheapest ms args m ↔
    ((r.callCost args m.params).any fun t => ms.all fun m' => (r.callCost args m'.params).all (t ≤ ·)) = true := by
  simp [Cheapest, ← callCost_eq_some_iff, Option.any_eq_true, Option.all_eq_true]

instance : DecidablePred (r.Cheapest ms args) := fun _ => decidable_of_iff _ cheapest_iff_callCost.symm

theorem cheapest_perm (h : ms.Perm ms') : r.Cheapest ms args m ↔ r.Cheapest ms' args m := by
  simp only [Cheapest, h.mem_iff]

/-- What a list of best candidates comes to. -/
def Choice.ofBest : List MethodEntry → Choice
  | [] => .noMatch
  | [m] => .found m
  | ms => .ambiguous ms

theorem Choice.ofBest_eq_noMatch : Choice.ofBest best = .noMatch ↔ best = [] := by
  unfold ofBest
  split <;> simp_all

theorem Choice.ofBest_eq_found : Choice.ofBest best = .found m ↔ best = [m] := by
  unfold ofBest
  split <;> simp_all

theorem Choice.ofBest_eq_ambiguous : Choice.ofBest best = .ambiguous ms ↔ best = ms ∧ 2 ≤ ms.length := by
  match best with
  | [] => simp +contextual [ofBest, eq_comm]
  | [m] => simp +contextual [ofBest, eq_comm]
  | m :: m' :: rest =>
    simp only [ofBest, ambiguous.injEq, iff_self_and]
    rintro rfl
    simp

/-- Of the candidates that have a cost, those of one cost. -/
theorem filter_viable (cost : MethodEntry → Option UInt32) (t : UInt32) (ms : List MethodEntry) :
    ((ms.filterMap fun m => (cost m).map (·, m)).filter (·.1 = t)).map (·.2) = ms.filter (cost · = some t) := by
  induction ms with
  | nil => rfl
  | cons m ms ih =>
    cases hm : cost m with
    | none => simp [hm, ih]
    | some u => by_cases hu : u = t <;> simp [hm, hu, ih]

theorem mem_viable_iff (cost : MethodEntry → Option UInt32) (t : UInt32) (ms : List MethodEntry) :
    t ∈ (ms.filterMap fun m => (cost m).map (·, m)).map (·.1) ↔ ∃ m ∈ ms, cost m = some t := by
  simp

/-- Choosing is looking at how many candidates of least cost there are. -/
theorem select_eq : r.select ms args = .ofBest (ms.filter (r.Cheapest ms args)) := by
  have hmem := fun t => mem_viable_iff (fun m => r.callCost args m.params) t ms
  have hfilter := fun t => filter_viable (fun m => r.callCost args m.params) t ms
  simp only [callCost_eq_some_iff] at hmem
  unfold select
  dsimp only
  split
  · rename_i hnone
    rw [List.min?_eq_none_iff] at hnone
    have hempty : ms.filter (r.Cheapest ms args) = [] := by
      refine List.filter_eq_nil_iff.2 fun m hm hcheapest => ?_
      obtain ⟨t, ht, -⟩ := of_decide_eq_true hcheapest
      have ht := (hmem t).2 ⟨m, hm, ht⟩
      rw [hnone] at ht
      cases ht
    rw [hempty]
    rfl
  · rename_i t ht
    obtain ⟨hattained, hleast⟩ := List.min?_eq_some_iff.1 ht
    obtain ⟨x, hx, hxt⟩ := (hmem t).1 hattained
    have hcheapest : ∀ m ∈ ms, (r.callCost args m.params = some t ↔ r.Cheapest ms args m) := by
      intro m hm
      rw [callCost_eq_some_iff]
      constructor
      · intro h
        exact ⟨t, h, fun m' hm' u hu => hleast u ((hmem u).2 ⟨m', hm', hu⟩)⟩
      · rintro ⟨u, hu, hbelow⟩
        have htu : t = u := UInt32.le_antisymm (hleast u ((hmem u).2 ⟨m, hm, hu⟩)) (hbelow x hx t hxt)
        rwa [htu]
    have hsame : ms.filter (r.callCost args ·.params = some t) = ms.filter (r.Cheapest ms args) :=
      List.filter_congr fun m hm => decide_eq_decide.2 (hcheapest m hm)
    have hne : ms.filter (r.Cheapest ms args) ≠ [] := by
      rw [← hsame]
      exact List.ne_nil_of_mem (List.mem_filter.2 ⟨hx, decide_eq_true (callCost_eq_some_iff.2 hxt)⟩)
    rw [hfilter t, hsame]
    obtain ⟨m, rest, heq⟩ := List.exists_cons_of_ne_nil hne
    rw [heq]
    cases rest <;> rfl

/-! ## The order of the candidates -/

theorem filter_cheapest_perm (h : ms.Perm ms') :
    (ms.filter (r.Cheapest ms args)).Perm (ms'.filter (r.Cheapest ms' args)) := by
  have hsame : ms.filter (r.Cheapest ms args) = ms.filter (r.Cheapest ms' args) :=
    List.filter_congr fun m _ => decide_eq_decide.2 (cheapest_perm h)
  rw [hsame]
  exact h.filter _

/-- In another order no other candidate is chosen. -/
theorem select_eq_found_of_perm (h : ms.Perm ms') (hm : r.select ms args = .found m) : r.select ms' args = .found m := by
  rw [select_eq, Choice.ofBest_eq_found] at hm ⊢
  have hperm : (ms.filter (r.Cheapest ms args)).Perm (ms'.filter (r.Cheapest ms' args)) := filter_cheapest_perm h
  rw [hm] at hperm
  exact List.perm_singleton.1 hperm.symm

/-! ## Totals that do not wrap -/

/-- No candidate's costs add up to more than 32 bits hold. -/
def Unwrapped (r : Registry) (ms : List MethodEntry) (args : List Ty) : Prop :=
  ∀ m ∈ ms, ∀ k, r.Costs args m.params k → k < UInt32.size

theorem length_chainFrom_le (fuel : Nat) (seen : List Name) (n : Name) : (r.chainFrom fuel seen n).length ≤ fuel := by
  induction fuel generalizing seen n with
  | zero => exact Nat.le_refl 0
  | succ fuel ih =>
    rw [chainFrom]
    split
    · exact Nat.zero_le _
    · split
      · exact Nat.zero_le _
      · rw [List.length_cons]
        refine Nat.succ_le_succ ?_
        split
        · exact Nat.zero_le _
        · exact ih _ _

/-- A conversion takes fewer steps up than there are classes. -/
theorem Converts.le {a p : Ty} (h : r.Converts a p k) : k ≤ r.classes.length + 2 := by
  cases h with
  | @up n m _ _ hk =>
    obtain ⟨hlt, -⟩ := List.findIdx?_eq_some_iff_getElem.1 hk
    have hlength : (r.chain n).length ≤ r.classes.length := length_chainFrom_le _ _ _
    omega
  | _ => omega

theorem Costs.le (h : r.Costs args params k) : k ≤ args.length * (r.classes.length + 2) := by
  induction h with
  | nil => exact Nat.zero_le _
  | @cons a p args params k l ha _ ih =>
    have hfirst := (conversionCost_eq_some_iff.1 ha).le
    calc k + l ≤ r.classes.length + 2 + args.length * (r.classes.length + 2) := Nat.add_le_add hfirst ih
      _ = (a :: args).length * (r.classes.length + 2) := by rw [List.length_cons, Nat.succ_mul, Nat.add_comm]

/-- No total wraps as long as arguments and classes are few enough. -/
theorem unwrapped_of_lt (h : args.length * (r.classes.length + 2) < UInt32.size) : r.Unwrapped ms args :=
  fun _ _ _ hk => hk.le.trans_lt h

section Unwrapped

variable (hunwrapped : r.Unwrapped ms args)
include hunwrapped

/-- The least totals are those of the least costs. -/
theorem Unwrapped.cheapest_iff (hm : m ∈ ms) :
    r.Cheapest ms args m ↔ ∃ k, r.Costs args m.params k ∧ ∀ m' ∈ ms, ∀ l, r.Costs args m'.params l → k ≤ l := by
  constructor
  · rintro ⟨_, ⟨k, hk, rfl⟩, hleast⟩
    refine ⟨k, hk, fun m' hm' l hl => ?_⟩
    exact (UInt32.ofNat_le_iff_le (hunwrapped m hm k hk) (hunwrapped m' hm' l hl)).1 (hleast m' hm' _ ⟨l, hl, rfl⟩)
  · rintro ⟨k, hk, hleast⟩
    refine ⟨_, ⟨k, hk, rfl⟩, ?_⟩
    rintro m' hm' _ ⟨l, hl, rfl⟩
    exact (UInt32.ofNat_le_iff_le (hunwrapped m hm k hk) (hunwrapped m' hm' l hl)).2 (hleast m' hm' l hl)

/-- A candidate whose parameters are the types of the arguments is passed them for free, and no other is. -/
theorem Unwrapped.cheapest_iff_of_mem (hvoid : ∀ t ∈ args, t ≠ .void) (hm : m ∈ ms) (hparams : m.params = args)
    {m' : MethodEntry} (hm' : m' ∈ ms) : r.Cheapest ms args m' ↔ m'.params = args := by
  have hfree : ∀ {m' : MethodEntry}, m'.params = args → r.Costs args m'.params 0 := fun h => by
    rw [h]
    exact costs_self hvoid
  rw [hunwrapped.cheapest_iff hm']
  constructor
  · rintro ⟨k, hk, hleast⟩
    obtain rfl := Nat.le_zero.1 (hleast m hm 0 (hfree hparams))
    exact hk.eq_of_zero.symm
  · intro h
    exact ⟨0, hfree h, fun _ _ _ _ => Nat.zero_le _⟩

theorem Unwrapped.select_eq_found (hnodup : (ms.map (·.params)).Nodup) (hvoid : ∀ t ∈ args, t ≠ .void) (hm : m ∈ ms)
    (hparams : m.params = args) : r.select ms args = .found m := by
  have hperm : (ms.filter (r.Cheapest ms args)).Perm [m] := by
    refine (List.perm_ext_iff_of_nodup ((List.Nodup.of_map _ hnodup).filter _) (List.nodup_singleton m)).2 fun m' => ?_
    rw [List.mem_filter, decide_eq_true_iff, List.mem_singleton]
    constructor
    · rintro ⟨hm', hcheapest⟩
      have heq := (hunwrapped.cheapest_iff_of_mem hvoid hm hparams hm').1 hcheapest
      exact List.inj_on_of_nodup_map hnodup hm' hm (heq.trans hparams.symm)
    · rintro rfl
      exact ⟨hm, (hunwrapped.cheapest_iff_of_mem hvoid hm hparams hm).2 hparams⟩
  rw [select_eq, Choice.ofBest_eq_found]
  exact List.perm_singleton.1 hperm

end Unwrapped

/-! ## The choice -/

/-- Where the arguments can be passed to a candidate, some candidate is of least cost. -/
theorem exists_cheapest (hm : m ∈ ms) (h : r.Totals args m.params t) : ∃ m ∈ ms, r.Cheapest ms args m := by
  induction hn : t.toNat using Nat.strong_induction_on generalizing m t with
  | _ n ih =>
    subst hn
    by_cases hless : ∃ m' ∈ ms, ∃ u < t, r.Totals args m'.params u
    · obtain ⟨m', hm', u, hu, htotals⟩ := hless
      exact ih u.toNat (UInt32.lt_iff_toNat_lt.1 hu) hm' htotals rfl
    · refine ⟨m, hm, t, h, fun m' hm' u hu => ?_⟩
      by_contra hlt
      exact hless ⟨m', hm', u, UInt32.not_le.1 hlt, hu⟩

theorem select_eq_noMatch_iff :
    r.select ms args = .noMatch ↔ ¬ ∃ m ∈ ms, List.Forall₂ (fun a p => r.isAssignable a p = true) args m.params := by
  rw [select_eq, Choice.ofBest_eq_noMatch, List.filter_eq_nil_iff]
  constructor
  · rintro hnone ⟨m, hm, htakes⟩
    obtain ⟨t, ht⟩ := exists_totals_iff.2 htakes
    obtain ⟨m', hm', hcheapest⟩ := exists_cheapest hm ht
    exact hnone m' hm' (decide_eq_true hcheapest)
  · intro hnone m hm hcheapest
    obtain ⟨t, ht, -⟩ := of_decide_eq_true hcheapest
    exact hnone ⟨m, hm, exists_totals_iff.1 ⟨t, ht⟩⟩

end ClassTree.Registry
