import ClassTree.Proofs.Pool

/-!
# The doubles that a pool holds

A pool has one constant for all doubles that are equal as constants, the one that was added first: after `0.0` has been
added, an addition of `-0.0` gives the index of `0.0`. So which double an index stands for depends on the order of additions.

`Pool.GrowsBy ds p q`: the pool `q` comes from `p` by additions, among them those of the doubles `ds` in this order. So the
doubles of `q` are known from `ds` (`Pool.GrowsBy.doubles`).
-/

namespace ClassTree

/-! ## Doubles that are held -/

/-- Adds a double to those that are held, unless an equal one is held already. -/
def hold (held : List Double) (d : Double) : List Double :=
  if held.any (·.canonical = d.canonical) then held else held ++ [d]

/-- Adds doubles one after the other. -/
def holdAll (held ds : List Double) : List Double := ds.foldl hold held

/-- The double that is held for a double. -/
def heldFor (held : List Double) (d : Double) : Double := (held.find? (·.canonical = d.canonical)).getD d

theorem holdAll_append (held ds ds' : List Double) : holdAll held (ds ++ ds') = holdAll (holdAll held ds) ds' :=
  List.foldl_append

theorem nodup_hold {held : List Double} {d : Double} (h : (held.map Double.canonical).Nodup) :
    ((hold held d).map Double.canonical).Nodup := by
  unfold hold
  split
  · exact h
  · rename_i hnew
    rw [List.map_append, List.nodup_append]
    refine ⟨h, by simp, fun a ha b hb => ?_⟩
    obtain ⟨x, hx, rfl⟩ := List.mem_map.1 ha
    obtain rfl : b = d.canonical := by simpa using hb
    exact fun heq => hnew (List.any_eq_true.2 ⟨x, hx, by simpa using heq⟩)

theorem nodup_holdAll {held : List Double} (h : (held.map Double.canonical).Nodup) (ds : List Double) :
    ((holdAll held ds).map Double.canonical).Nodup := by
  induction ds generalizing held with
  | nil => exact h
  | cons d ds ih => exact ih (nodup_hold h)

/-- Of doubles that are all different one is held for each that equals it. -/
theorem heldFor_eq {held : List Double} (h : (held.map Double.canonical).Nodup) {d d' : Double} (hd' : d' ∈ held)
    (heq : d'.canonical = d.canonical) : heldFor held d = d' := by
  induction held with
  | nil => cases hd'
  | cons x held ih =>
    rw [List.map_cons, List.nodup_cons] at h
    rcases List.mem_cons.1 hd' with rfl | hd'
    · simp [heldFor, heq]
    · have hne : x.canonical ≠ d.canonical := fun hx => h.1 (List.mem_map.2 ⟨d', hd', heq.trans hx.symm⟩)
      rw [heldFor, List.find?_cons_of_neg (by simpa using hne)]
      exact ih h.2 hd'

/-! ## Pools -/

/-- The doubles among constants. -/
def Constants.doubles (cs : Constants) : List Double := cs.toList.filterMap fun
  | .double d => some d
  | _ => none

/-- The doubles that an addition to a pool brings with it. -/
def Item.doubles : Item → List Double
  | .double d => [d]
  | _ => []

namespace Pool

variable {p q : Pool} {c : Constant}

/-- A well-formed pool that knows the index of every double it has. -/
structure Indexed (p : Pool) : Prop extends p.WellFormed where
  doubles : ∀ d ∈ p.constants.doubles, (p.index[Constant.double d.canonical]?).isSome = true

theorem indexed_empty : empty.Indexed := ⟨wellFormed_empty, fun _ h => nomatch h⟩

theorem doubles_push (cs : Constants) (c : Constant) : Constants.doubles (cs.push c) = cs.doubles ++ match c with
    | .double d => [d]
    | _ => [] := by
  rw [Constants.doubles, Array.toList_push, List.filterMap_append]
  cases c <;> rfl

theorem mem_doubles_of_get? {cs : Constants} {i : UInt16} {d : Double} (h : cs.get? i = some (.double d)) :
    d ∈ cs.doubles := by
  unfold Constants.get? at h
  split at h
  · cases h
  · exact List.mem_filterMap.2 ⟨_, Array.mem_toList_iff.2 (Array.mem_of_getElem? h), rfl⟩

/-- A pool knows a double if it has an equal one. -/
theorem Indexed.any_iff (h : p.Indexed) (d : Double) :
    p.constants.doubles.any (·.canonical = d.canonical) = (p.index[Constant.double d.canonical]?).isSome := by
  rw [Bool.eq_iff_iff, List.any_eq_true]
  constructor
  · rintro ⟨x, hx, heq⟩
    rw [← of_decide_eq_true heq]
    exact h.doubles x hx
  · intro hsome
    obtain ⟨i, hi⟩ := Option.isSome_iff_exists.1 hsome
    obtain ⟨k, hk, hcanonical⟩ := h.index _ _ hi
    cases k with
    | double x => exact ⟨x, mem_doubles_of_get? hk, by simpa [Constant.canonical] using hcanonical⟩
    | _ => cases hcanonical

theorem Indexed.add (h : p.Indexed) (c : Constant) : (p.add c).2.Indexed := by
  refine ⟨h.toWellFormed.add, ?_⟩
  have hkeep : ∀ d ∈ p.constants.doubles, ((p.add c).2.index[Constant.double d.canonical]?).isSome = true := by
    intro d hd
    obtain ⟨i, hi⟩ := Option.isSome_iff_exists.1 (h.doubles d hd)
    exact Option.isSome_iff_exists.2 ⟨i, index_add hi⟩
  intro d hd
  unfold Pool.add at hd
  split at hd
  · exact hkeep d hd
  · rename_i hnew
    dsimp only at hd
    split at hd
    · rename_i hroom
      rw [doubles_push, List.mem_append] at hd
      rcases hd with hd | hd
      · exact hkeep d hd
      · cases c with
        | double x =>
          obtain rfl : d = x := by simpa using hd
          simp only [Pool.add, hnew, hroom, if_true]
          rw [show Constant.double d.canonical = (Constant.double d).canonical from rfl]
          simp
        | _ => cases hd
    · exact hkeep d hd

/-- What the addition of a double does to the doubles of a pool that does not overflow. -/
theorem Indexed.doubles_add {d : Double} (h : p.Indexed) (hover : (p.add (.double d)).2.overflowed = false) :
    (p.add (.double d)).2.constants.doubles = hold p.constants.doubles d := by
  have hany := h.any_iff d
  rw [show Constant.double d.canonical = (Constant.double d).canonical from rfl] at hany
  cases hi : p.index[(Constant.double d).canonical]? with
  | some i =>
    rw [hi] at hany
    simp only [Pool.add, hi, hold, hany]
    rfl
  | none =>
    rw [hi] at hany
    simp only [Pool.add, hi] at hover ⊢
    split
    · rw [doubles_push]
      simp only [hold, hany]
      rfl
    · rename_i hfull
      rw [if_neg hfull] at hover
      cases hover

/-- Other additions leave the doubles alone. -/
theorem doubles_add_of_ne (hc : ∀ d, c ≠ .double d) : (p.add c).2.constants.doubles = p.constants.doubles := by
  unfold Pool.add
  split
  · rfl
  · dsimp only
    split
    · rw [doubles_push]
      cases c with
      | double d => exact absurd rfl (hc d)
      | _ => exact List.append_nil _
    · rfl

theorem doubles_addUtf8 (s : String) : (p.addUtf8 s).2.constants.doubles = p.constants.doubles := doubles_add_of_ne nofun

theorem doubles_addClass (name : String) : (p.addClass name).2.constants.doubles = p.constants.doubles := by
  rw [addClass_eq, doubles_add_of_ne (c := .cls _) nofun, doubles_addUtf8]

theorem doubles_addMember (m : MemberRef) : (p.addMember m).2.constants.doubles = p.constants.doubles := by
  rw [addMember_pool, doubles_addUtf8, doubles_addUtf8, doubles_addClass]

theorem Indexed.doubles_put (h : p.Indexed) {item : Item} (hover : (p.put item).2.overflowed = false) :
    (p.put item).2.constants.doubles = holdAll p.constants.doubles item.doubles := by
  cases item with
  | utf8 s => exact doubles_addUtf8 s
  | int n => exact doubles_add_of_ne fun _ h => by cases h
  | long n => exact doubles_add_of_ne fun _ h => by cases h
  | double d => exact h.doubles_add hover
  | string s =>
    rw [put, addString_eq, doubles_add_of_ne (c := .string _) (fun _ h => by cases h), doubles_addUtf8]
    rfl
  | cls name => exact doubles_addClass name
  | field ref =>
    rw [put, addFieldRef_eq, doubles_add_of_ne (c := .fieldRef ..) (fun _ h => by cases h), doubles_addMember]
    rfl
  | method ref =>
    rw [put, addMethodRef_eq, doubles_add_of_ne (c := .methodRef ..) (fun _ h => by cases h), doubles_addMember]
    rfl

/-! ## Growth -/

/-- The second pool comes from the first by additions, among them those of the doubles of a list in its order. -/
inductive GrowsBy : List Double → Pool → Pool → Prop
  | refl (p : Pool) : GrowsBy [] p p
  | put {ds : List Double} {p q : Pool} (item : Item) : GrowsBy ds (p.put item).2 q → GrowsBy (item.doubles ++ ds) p q

namespace GrowsBy

variable {ds ds' : List Double} {r : Pool}

theorem trans (h : GrowsBy ds p q) (h' : GrowsBy ds' q r) : GrowsBy (ds ++ ds') p r := by
  induction h with
  | refl => exact h'
  | put item _ ih =>
    rw [List.append_assoc]
    exact .put item (ih h')

theorem single (item : Item) : GrowsBy item.doubles p (p.put item).2 := by
  have h := GrowsBy.put item (.refl (p.put item).2)
  rwa [List.append_nil] at h

theorem grows (h : GrowsBy ds p q) : Grows (fun _ => True) p q := by
  induction h with
  | refl p => exact .refl p
  | put item _ ih => exact .put item trivial ih

/-- A pool that does not overflow holds the first of the doubles that are equal. -/
theorem doubles (h : GrowsBy ds p q) (hp : p.Indexed) (hover : q.overflowed = false) :
    q.constants.doubles = holdAll p.constants.doubles ds := by
  induction h with
  | refl => rfl
  | put item hrest ih =>
    have hput : ((Pool.put _ item).2).Indexed := put_invariant (fun _ c hp => hp.add c) hp item
    rw [ih hput hover, hp.doubles_put (hrest.grows.later.overflowed hover), holdAll_append]

end GrowsBy

end Pool

end ClassTree
