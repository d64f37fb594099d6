import ClassTree.Proofs.Verify.Depths

/-!
# What verification accepts

A class file is accepted iff each of its constants, nesting relations, fields and methods is, and no field and no method
is there twice. The conditions on one nesting relation, field or method are gathered in `InnerAccepted`, `FieldAccepted`
and `MethodAccepted`.
-/

namespace ClassTree

/-! ## Constants -/

theorem Constants.verifyFrom_eq_ok {cs : Constants} {i : Nat} {rest : List Constant} {u : Unit} :
    cs.verifyFrom i rest = .ok u ↔ ∀ j k, rest[j]? = some k → cs.verifyAt (i + j + 1).toUInt16 k = .ok () := by
  induction rest generalizing i with
  | nil => simp [verifyFrom]
  | cons k rest ih =>
    rw [verifyFrom, bind_eq_ok]
    constructor
    · rintro ⟨_, hk, hrest⟩ j k' hj
      cases j with
      | zero => cases hj; exact hk
      | succ j =>
        have := ih.1 hrest j k' hj
        rwa [show i + (j + 1) + 1 = i + 1 + j + 1 by omega]
    · intro h
      refine ⟨(), h 0 k rfl, ih.2 fun j k' hj => ?_⟩
      have := h (j + 1) k' hj
      rwa [show i + (j + 1) + 1 = i + 1 + j + 1 by omega] at this

/-- Constants are accepted iff each of them is. -/
theorem Constants.verify_eq_ok {cs : Constants} {u : Unit} :
    cs.verify = .ok u ↔ ∀ j k, cs[j]? = some k → cs.verifyAt (j + 1).toUInt16 k = .ok () := by
  simp [verify, verifyFrom_eq_ok]

/-- A string constant of accepted constants has a text. -/
theorem Constants.string?_isSome {cs : Constants} (h : cs.verify = .ok ()) {i text : UInt16}
    (hi : cs.get? i = some (.string text)) : ∃ s, cs.string? i = some s := by
  unfold get? at hi
  split at hi
  · cases hi
  · rename_i hne
    have hpos : 0 < i.toNat := by
      rcases Nat.eq_zero_or_pos i.toNat with h0 | h0
      · exact absurd (UInt16.toNat_inj.1 h0) hne
      · exact h0
    have hv := verify_eq_ok.1 h _ _ hi
    simp only [verifyAt, bind_eq_ok, orFail_eq_ok, pure_eq_ok] at hv
    obtain ⟨s, hs, -⟩ := hv
    exact ⟨s, by simp [string?, get?, hne, hi, hs]⟩

theorem Modifiers.truncate_of_isKnown {m : Modifiers} (h : m.isKnown = true) : m.truncate = m := of_decide_eq_true h

/-! ## Nesting relations -/

namespace ClassFile

/-- What is asked of a nesting relation by itself, in the class of a name; `inner` is the text of the nested class. -/
structure InnerAccepted (f : ClassFile) (name : Name) (i : InnerInfo) (inner : String) : Prop where
  names : f.constants.className? i.inner = some inner
  known : i.access.isKnown = true
  outer : ∃ outer innerName, f.constants.className? i.outer = some outer ∧ Name.parse? inner = some innerName ∧
    innerName.enclosing.map Name.text = some outer ∧ f.constants.utf8? i.simpleName = some innerName.simpleName ∧
    (inner = name.text ∨ outer = name.text)

theorem verifyInnerInfo_eq_ok {f : ClassFile} {name : Name} {seen : Std.HashSet String} {i : InnerInfo}
    {inner : String} :
    f.verifyInnerInfo name seen i = .ok inner ↔ f.InnerAccepted name i inner ∧ inner ∉ seen := by
  unfold verifyInnerInfo
  constructor
  · intro h
    split at h
    · rename_i inn outer simple hinner houter hsimple
      simp only [bind_eq_ok, orFail_eq_ok, require_eq_ok, pure_eq_ok] at h
      obtain ⟨-, rfl, -, hknown, -, hseen, innerName, hparse, -, hnamed, -, hrelated, rfl⟩ := h
      simp only [Bool.and_eq_true, decide_eq_true_eq] at hnamed
      obtain ⟨hout, rfl⟩ := hnamed
      exact ⟨⟨hinner, hknown, outer, innerName, houter, hparse, hout, hsimple, by simpa using hrelated⟩,
        by simpa using hseen⟩
    · cases h
  · rintro ⟨⟨hinner, hknown, outer, innerName, houter, hparse, hout, hsimple, hrelated⟩, hseen⟩
    simp only [hinner, houter, hsimple, bind_eq_ok, orFail_eq_ok, require_eq_ok, pure_eq_ok]
    exact ⟨_, rfl, (), hknown, (), by simpa using hseen, innerName, hparse, (), by simpa using hout, (),
      by simpa using hrelated, rfl⟩

theorem verifyInnerFrom_eq_ok {f : ClassFile} {name : Name} {seen all : Std.HashSet String} {is : List InnerInfo}
    (h : f.verifyInnerFrom name seen is = .ok all) :
    ∃ inners, List.Forall₂ (f.InnerAccepted name) is inners ∧ ∀ n, n ∈ all → n ∈ seen ∨ n ∈ inners := by
  induction is generalizing seen with
  | nil => cases h; exact ⟨[], .nil, fun n hn => .inl hn⟩
  | cons i is ih =>
    rw [verifyInnerFrom, bind_eq_ok] at h
    obtain ⟨inner, hinner, hrest⟩ := h
    obtain ⟨inners, hinners, hall⟩ := ih hrest
    refine ⟨inner :: inners, .cons (verifyInnerInfo_eq_ok.1 hinner).1 hinners, fun n hn => ?_⟩
    rcases hall n hn with hn | hn
    · rcases Std.HashSet.mem_insert.1 hn with heq | hn
      · exact .inr (beq_iff_eq.1 heq ▸ List.mem_cons_self)
      · exact .inl hn
    · exact .inr (List.mem_cons_of_mem _ hn)

/-- If nesting relations are accepted, each of them is, and that of a nested class itself is among them. -/
theorem verifyInner_eq_ok {f : ClassFile} {name : Name} {u : Unit} (h : f.verifyInner name = .ok u) :
    ∃ inners, List.Forall₂ (f.InnerAccepted name) f.inner inners ∧ (name.isNested = true → name.text ∈ inners) := by
  simp only [verifyInner, bind_eq_ok, require_eq_ok] at h
  obtain ⟨seen, hseen, hown⟩ := h
  obtain ⟨inners, hinners, hall⟩ := verifyInnerFrom_eq_ok hseen
  refine ⟨inners, hinners, fun hnested => ?_⟩
  have hmem : name.text ∈ seen := by simpa [hnested] using hown
  rcases hall _ hmem with h | h
  · simp at h
  · exact h

theorem verifyInnerFrom_of_accepted {f : ClassFile} {name : Name} {seen : Std.HashSet String} {is : List InnerInfo}
    {inners : List String} (h : List.Forall₂ (f.InnerAccepted name) is inners) (hnodup : inners.Nodup)
    (hnew : ∀ n ∈ inners, n ∉ seen) :
    ∃ all, f.verifyInnerFrom name seen is = .ok all ∧ ∀ n, n ∈ seen ∨ n ∈ inners → n ∈ all := by
  induction h generalizing seen with
  | nil => exact ⟨seen, rfl, fun n hn => hn.resolve_right List.not_mem_nil⟩
  | @cons i inner is inners hi _ ih =>
    obtain ⟨hfirst, hnodup⟩ := List.nodup_cons.1 hnodup
    obtain ⟨hinner, hnew⟩ := List.forall_mem_cons.1 hnew
    have hnew : ∀ n ∈ inners, n ∉ seen.insert inner := by
      intro n hn hmem
      rcases Std.HashSet.mem_insert.1 hmem with heq | hmem
      · exact hfirst (beq_iff_eq.1 heq ▸ hn)
      · exact hnew n hn hmem
    obtain ⟨all, hall, hmem⟩ := ih hnodup hnew
    refine ⟨all, bind_eq_ok.2 ⟨inner, verifyInnerInfo_eq_ok.2 ⟨hi, hinner⟩, hall⟩, fun n hn => hmem n ?_⟩
    rcases hn with hn | hn
    · exact .inl (Std.HashSet.mem_insert.2 (.inr hn))
    · rcases List.mem_cons.1 hn with rfl | hn
      · exact .inl Std.HashSet.mem_insert_self
      · exact .inr hn

/-- Nesting relations are accepted if each of them is, no class is nested twice, and a nested class has its own. -/
theorem verifyInner_of_accepted {f : ClassFile} {name : Name} {inners : List String}
    (h : List.Forall₂ (f.InnerAccepted name) f.inner inners) (hnodup : inners.Nodup)
    (hown : name.isNested = true → name.text ∈ inners) : f.verifyInner name = .ok () := by
  obtain ⟨all, hall, hmem⟩ := verifyInnerFrom_of_accepted h hnodup fun n _ => (Std.HashSet.not_mem_empty : n ∉ (∅ : Std.HashSet _))
  refine bind_eq_ok.2 ⟨all, hall, require_eq_ok.2 ?_⟩
  cases hnested : name.isNested with
  | false => rfl
  | true => simpa using hmem _ (.inr (hown hnested))

/-! ## Fields -/

/-- What is asked of a field by itself, whose name is the one given. -/
structure FieldAccepted (f : ClassFile) (field : FieldInfo) (name : String) : Prop where
  name : memberName? f.constants field.name = some name
  ty : ∃ t, (f.constants.utf8? field.descriptor).bind Ty.ofFieldDescriptor? = some t
  known : field.access.isKnown = true

theorem verifyFieldsFrom_eq_ok {f : ClassFile} {seen : Std.HashSet String} {fields : List FieldInfo} {u : Unit} :
    f.verifyFieldsFrom seen fields = .ok u ↔
      ∃ names, List.Forall₂ f.FieldAccepted fields names ∧ names.Nodup ∧ ∀ n ∈ names, n ∉ seen := by
  induction fields generalizing seen with
  | nil => simp [verifyFieldsFrom]
  | cons field fields ih =>
    simp only [verifyFieldsFrom, bind_eq_ok, orFail_eq_ok, require_eq_ok]
    constructor
    · rintro ⟨name, hname, t, ht, -, hknown, -, hseen, hrest⟩
      obtain ⟨names, hnames, hnodup, hnew⟩ := ih.1 hrest
      refine ⟨name :: names, .cons ⟨hname, ⟨t, ht⟩, hknown⟩ hnames,
        List.nodup_cons.2 ⟨fun hm => hnew name hm (by simp), hnodup⟩, fun n hn => ?_⟩
      rcases List.mem_cons.1 hn with rfl | hn
      · simpa using hseen
      · exact fun hs => hnew n hn (Std.HashSet.mem_insert.2 (.inr hs))
    · rintro ⟨_, hall, hnodup, hnew⟩
      obtain ⟨name, names, ⟨hname, ⟨t, ht⟩, hknown⟩, hnames, rfl⟩ := List.forall₂_cons_left_iff.1 hall
      obtain ⟨hfirst, hnodup⟩ := List.nodup_cons.1 hnodup
      have hseen : name ∉ seen := hnew name (by simp)
      refine ⟨name, hname, t, ht, (), hknown, (), by simpa using hseen, ih.2 ⟨names, hnames, hnodup, fun n hn hs => ?_⟩⟩
      rcases Std.HashSet.mem_insert.1 hs with heq | hs
      · exact hfirst (by rwa [beq_iff_eq.1 heq])
      · exact hnew n (List.mem_cons_of_mem _ hn) hs

/-- Fields are accepted iff each of them is and no two have the same name. -/
theorem verifyFields_eq_ok {f : ClassFile} {u : Unit} :
    f.verifyFields = .ok u ↔ ∃ names, List.Forall₂ f.FieldAccepted f.fields names ∧ names.Nodup := by
  simp [verifyFields, verifyFieldsFrom_eq_ok]

end ClassFile

/-! ## Methods -/

namespace ClassFile

/-- The check of a method's code. -/
def codeCheck (f : ClassFile) (m : MethodInfo) (name descriptor : String) (sig : Signature) : CodeCheck where
  constants := f.constants
  method := name ++ descriptor
  maxLocals := m.maxLocals
  code := m.code
  returnsValue := !sig.ret.isVoid

/-- What is asked of a method by itself, whose name and descriptor are those given. -/
structure MethodAccepted (f : ClassFile) (m : MethodInfo) (key : String × String) : Prop where
  name : memberName? f.constants m.name = some key.1
  descriptor : f.constants.utf8? m.descriptor = some key.2
  known : m.access.isKnown = true
  sig : ∃ sig, Signature.ofDescriptor? key.2 = some sig ∧
    (key.1 = constructorName → m.access.isStatic = false ∧ sig.ret.isVoid = true) ∧
    if m.access.isAbstract then f.access.isAbstract = true ∧ m.code.isEmpty = true
    else m.code.isEmpty = false ∧ sig.params.length + (if m.access.isStatic then 0 else 1) ≤ m.maxLocals.toNat ∧
      ∃ r, (f.codeCheck m key.1 key.2 sig).analyze = .ok r

end ClassFile

theorem CodeCheck.verify_eq_ok {c : CodeCheck} {u : Unit} : c.verify = .ok u ↔ ∃ r, c.analyze = .ok r := by
  simp only [verify, bind_eq_ok, pure_eq_ok, and_true]

namespace ClassFile

theorem verifyMethod_eq_ok {f : ClassFile} {seen : Std.HashSet (String × String)} {m : MethodInfo}
    {key : String × String} :
    f.verifyMethod seen m = .ok key ↔ f.MethodAccepted m key ∧ key ∉ seen := by
  obtain ⟨name, descriptor⟩ := key
  unfold verifyMethod
  simp only [bind_eq_ok, orFail_eq_ok, require_eq_ok]
  constructor
  · rintro ⟨n, hn, d, hd, sig, hsig, -, hknown, -, hseen, -, hctor, hbody⟩
    have hkey : (n, d) = (name, descriptor) ∧
        if m.access.isAbstract then f.access.isAbstract = true ∧ m.code.isEmpty = true
        else m.code.isEmpty = false ∧ sig.params.length + (if m.access.isStatic then 0 else 1) ≤ m.maxLocals.toNat ∧
          ∃ r, (f.codeCheck m n d sig).analyze = .ok r := by
      split at hbody
      · rename_i habs
        simp only [bind_eq_ok, require_eq_ok, pure_eq_ok] at hbody
        obtain ⟨-, h1, -, h2, heq⟩ := hbody
        rw [if_pos habs]
        exact ⟨heq, h1, h2⟩
      · rename_i habs
        simp only [bind_eq_ok, require_eq_ok, CodeCheck.verify_eq_ok, pure_eq_ok] at hbody
        obtain ⟨-, h1, -, h2, -, h3, heq⟩ := hbody
        rw [if_neg habs]
        exact ⟨heq, by simpa using h1, by simpa using h2, h3⟩
    obtain ⟨heq, hbody⟩ := hkey
    cases heq
    refine ⟨⟨hn, hd, hknown, sig, hsig, fun hc => ?_, hbody⟩, by simpa using hseen⟩
    change name = constructorName at hc
    simpa [hc] using hctor
  · rintro ⟨⟨hn, hd, hknown, sig, hsig, hctor, hbody⟩, hseen⟩
    refine ⟨name, hn, descriptor, hd, sig, hsig, (), hknown, (), by simpa using hseen, (), ?_, ?_⟩
    · by_cases hc : name = constructorName
      · simpa [hc] using hctor hc
      · simp [hc]
    · split
      · rename_i habs
        rw [if_pos habs] at hbody
        simp only [bind_eq_ok, require_eq_ok, pure_eq_ok]
        exact ⟨(), hbody.1, (), hbody.2, trivial⟩
      · rename_i habs
        rw [if_neg habs] at hbody
        obtain ⟨h1, h2, h3⟩ := hbody
        simp only [bind_eq_ok, require_eq_ok, CodeCheck.verify_eq_ok, pure_eq_ok]
        exact ⟨(), by simpa using h1, (), by simpa using h2, (), h3, trivial⟩

theorem verifyMethodsFrom_eq_ok {f : ClassFile} {seen : Std.HashSet (String × String)} {ms : List MethodInfo}
    {u : Unit} :
    f.verifyMethodsFrom seen ms = .ok u ↔
      ∃ keys, List.Forall₂ f.MethodAccepted ms keys ∧ keys.Nodup ∧ ∀ k ∈ keys, k ∉ seen := by
  induction ms generalizing seen with
  | nil => simp [verifyMethodsFrom]
  | cons m ms ih =>
    rw [verifyMethodsFrom, bind_eq_ok]
    constructor
    · rintro ⟨key, hkey, hrest⟩
      obtain ⟨haccepted, hseen⟩ := verifyMethod_eq_ok.1 hkey
      obtain ⟨keys, hkeys, hnodup, hnew⟩ := ih.1 hrest
      refine ⟨key :: keys, .cons haccepted hkeys, List.nodup_cons.2 ⟨fun hm => ?_, hnodup⟩, ?_⟩
      · exact hnew key hm (by simp)
      · intro k hk
        rcases List.mem_cons.1 hk with rfl | hk
        · exact hseen
        · exact fun hs => hnew k hk (Std.HashSet.mem_insert.2 (.inr hs))
    · rintro ⟨_, hall, hnodup, hnew⟩
      obtain ⟨key, keys, haccepted, hkeys, rfl⟩ := List.forall₂_cons_left_iff.1 hall
      obtain ⟨hkey, hnodup⟩ := List.nodup_cons.1 hnodup
      refine ⟨key, verifyMethod_eq_ok.2 ⟨haccepted, hnew key (by simp)⟩, ih.2 ⟨keys, hkeys, hnodup, fun k hk => ?_⟩⟩
      intro hs
      rcases Std.HashSet.mem_insert.1 hs with heq | hs
      · exact hkey (by rwa [beq_iff_eq.1 heq])
      · exact hnew k (List.mem_cons_of_mem _ hk) hs

/-- Methods are accepted iff each of them is and no two have the same name and descriptor. -/
theorem verifyMethods_eq_ok {f : ClassFile} {u : Unit} :
    f.verifyMethods = .ok u ↔ ∃ keys, List.Forall₂ f.MethodAccepted f.methods keys ∧ keys.Nodup := by
  simp [verifyMethods, verifyMethodsFrom_eq_ok]

end ClassFile

end ClassTree
