import ClassTree.Proofs.Compile.Checked
import ClassTree.Proofs.Resolution

/-!
# Classes that were entered without findings

Whatever else is wrong with the classes that are resolved, a class that no finding names is entered with all its members
(`Registry.entered_resolve`). Its own members are found first (`Registry.Entered.findField?_of_mem`,
`Registry.Entered.findField?_outer`), and its bodies call the superclass constructor nowhere but at the start of a constructor
(`Registry.Entered.callsSuper_method`, `Registry.Entered.callsSuper_constructor`).
-/

namespace ClassTree

/-- Findings that name a class are none if no finding names it. -/
theorem About.eq_nil_of_forall {name : Name} {found : List Diagnostic} (h : About name found)
    (hnone : ∀ x ∈ found, x.cls ≠ name.text) : found = [] :=
  List.eq_nil_iff_forall_not_mem.2 fun x hx => hnone x hx (h x hx).2

/-! ## Calls of the superclass constructor -/

namespace Site

variable {s : Site}

mutual

/-- A statement in which nothing is found calls the superclass constructor only if it is such a call, and one is allowed. -/
theorem clean_checkStmt : ∀ (allowSuper : Bool) (x : Stmt) {found : Array Diagnostic},
    (s.checkStmt allowSuper x found).toList = [] →
      found.toList = [] ∧ (x.callsSuper = false ∨ allowSuper = true ∧ ∃ args, x = .superCall args)
  | _, .block stmts, found, h => by
    rw [checkStmt] at h
    obtain ⟨hfound, hstmts⟩ := clean_checkStmts false stmts h
    exact ⟨hfound, .inl (by rw [Stmt.callsSuper]; exact hstmts)⟩
  | _, .decl _ ty none, found, h => by
    rw [checkStmt, Array.toList_appendList, List.append_eq_nil_iff] at h
    exact ⟨h.1, .inl (by rw [Stmt.callsSuper])⟩
  | _, .decl _ ty (some e), found, h => by
    rw [checkStmt, Array.toList_appendList, Array.toList_appendList, List.append_eq_nil_iff, List.append_eq_nil_iff] at h
    exact ⟨h.1.1, .inl (by rw [Stmt.callsSuper])⟩
  | _, .expr e, found, h => by
    rw [checkStmt, Array.toList_appendList, List.append_eq_nil_iff] at h
    exact ⟨h.1, .inl (by rw [Stmt.callsSuper])⟩
  | _, .ret none, found, h => by
    rw [checkStmt] at h
    exact ⟨h, .inl (by rw [Stmt.callsSuper])⟩
  | _, .ret (some e), found, h => by
    rw [checkStmt, Array.toList_appendList, List.append_eq_nil_iff] at h
    exact ⟨h.1, .inl (by rw [Stmt.callsSuper])⟩
  | _, .cond test t none, found, h => by
    rw [checkStmt] at h
    obtain ⟨hfound, ht⟩ := clean_checkStmt false t h
    rw [Array.toList_appendList, List.append_eq_nil_iff] at hfound
    exact ⟨hfound.1, .inl (by rw [Stmt.callsSuper]; simpa using ht)⟩
  | _, .cond test t (some e), found, h => by
    rw [checkStmt] at h
    obtain ⟨hfound, he⟩ := clean_checkStmt false e h
    obtain ⟨hfound, ht⟩ := clean_checkStmt false t hfound
    rw [Array.toList_appendList, List.append_eq_nil_iff] at hfound
    exact ⟨hfound.1, .inl (by rw [Stmt.callsSuper, Bool.or_eq_false_iff]; exact ⟨by simpa using ht, by simpa using he⟩)⟩
  | _, .loop test body, found, h => by
    rw [checkStmt] at h
    obtain ⟨hfound, hbody⟩ := clean_checkStmt false body h
    rw [Array.toList_appendList, List.append_eq_nil_iff] at hfound
    exact ⟨hfound.1, .inl (by rw [Stmt.callsSuper]; simpa using hbody)⟩
  | allowSuper, .superCall args, found, h => by
    rw [checkStmt, Array.toList_appendList, List.append_eq_nil_iff] at h
    cases allowSuper with
    | true => exact ⟨h.1, .inr ⟨rfl, args, rfl⟩⟩
    | false => simp at h

theorem clean_checkStmts : ∀ (allowSuper : Bool) (xs : List Stmt) {found : Array Diagnostic},
    (s.checkStmts allowSuper xs found).toList = [] →
      found.toList = [] ∧ anyCallsSuper (if allowSuper then (splitSuperCall xs).2 else xs) = false
  | allowSuper, [], found, h => by
    rw [checkStmts] at h
    refine ⟨h, ?_⟩
    cases allowSuper <;> rfl
  | allowSuper, x :: rest, found, h => by
    rw [checkStmts] at h
    obtain ⟨hfound, hrest⟩ := clean_checkStmts false rest h
    obtain ⟨hfound, hx⟩ := clean_checkStmt allowSuper x hfound
    refine ⟨hfound, ?_⟩
    rcases hx with hx | ⟨rfl, args, rfl⟩
    · -- What is no such call itself is not taken off, so the statement is one of the rest.
      have hsplit : (splitSuperCall (x :: rest)).2 = x :: rest := by
        unfold splitSuperCall
        split
        · rename_i heq
          cases heq
          rw [Stmt.callsSuper] at hx
          cases hx
        · rfl
      rw [hsplit, ite_self, anyCallsSuper, hx, Bool.false_or]
      exact hrest
    · exact hrest

end

theorem callsSuper_of_checkBody {isConstructor : Bool} {body : List Stmt} (h : s.checkBody isConstructor body = []) :
    anyCallsSuper (if isConstructor then (splitSuperCall body).2 else body) = false :=
  (clean_checkStmts isConstructor body h).2

end Site

namespace Registry

variable {r : Registry}

/-! ## The entry of a class -/

/-- A class has its entry, and nothing is wrong with its declarations. -/
structure Entered (r declared : Registry) (d : ClassDef) : Prop where
  get : r.get? d.name = some (d.entry declared)
  clean : d.checkDeclarations declared = []

theorem get?_update {n m : Name} {f : ClassEntry → ClassEntry} (hf : ∀ e, (f e).name = e.name) :
    (r.update n f).get? m = if m = n then (r.get? m).map f else r.get? m := by
  have hstep : ∀ c : ClassEntry, (if c.name = n then { f c with name := c.name } else c).name = c.name := by
    intro c
    split <;> rfl
  unfold get? update
  rw [List.find?_map]
  have hsame : (fun c : ClassEntry => decide (c.name = m)) ∘
      (fun c => if c.name = n then { f c with name := c.name } else c) = fun c => decide (c.name = m) := by
    funext c
    simp only [Function.comp_apply, hstep]
  rw [hsame]
  cases hfind : r.classes.find? (·.name = m) with
  | none => simp
  | some e =>
    have hname : e.name = m := by simpa using List.find?_some hfind
    by_cases hm : m = n
    · rw [if_pos hm, Option.map_some, if_pos (hname.trans hm), Option.map_some, ← hf e]
    · rw [if_neg hm, Option.map_some, if_neg fun heq => hm (hname.symm.trans heq)]

/-- What is registered stays registered as it is when more classes are declared. -/
theorem get?_declareAll {n : Name} {e : ClassEntry} (h : r.get? n = some e) (ds : List ClassDef) :
    (r.declareAll ds).1.get? n = some e := by
  induction ds generalizing r with
  | nil => exact h
  | cons d ds ih =>
    rw [declareAll_cons]
    apply ih
    rw [declare_eq]
    split
    · exact h
    · unfold get? at h ⊢
      rw [List.find?_append, h]
      rfl

/-- A class that is declared a second time is reported. -/
theorem exists_of_contains {d : ClassDef} {ds : List ClassDef} (hd : d ∈ ds) (hcontains : r.contains d.name = true) :
    ∃ x ∈ (r.declareAll ds).2, x.cls = d.name.text := by
  induction ds generalizing r with
  | nil => cases hd
  | cons d' ds ih =>
    rw [declareAll_cons]
    rcases List.mem_cons.1 hd with rfl | hd
    · have hreported : (d.declare r).2 = d.checkModifiers ++
          [.ofClass .duplicateMember d.name.text s!"class '{d.name.text}' is already declared"] := by
        rw [declare_eq, hcontains]
        rfl
      refine ⟨.ofClass .duplicateMember d.name.text s!"class '{d.name.text}' is already declared", ?_, rfl⟩
      rw [hreported]
      exact List.mem_append_left _ (List.mem_append_right _ (List.mem_singleton.2 rfl))
    · have hkept : (d'.declare r).1.contains d.name = true := by
        obtain ⟨e, he⟩ := Option.isSome_iff_exists.1 hcontains
        have hget := get?_declareAll he [d']
        rw [contains, show (d'.declare r).1 = (r.declareAll [d']).1 from rfl, hget]
        rfl
      obtain ⟨x, hx, hcls⟩ := ih hd hkept
      exact ⟨x, List.mem_append_right _ hx, hcls⟩

/-- A class that no finding names is declared, and no other class has its name. -/
theorem declareAll_clean {d : ClassDef} {ds : List ClassDef} (hd : d ∈ ds)
    (hclean : ∀ x ∈ (r.declareAll ds).2, x.cls ≠ d.name.text) :
    (r.declareAll ds).1.get? d.name = some d.header ∧ ∀ d' ∈ ds, d'.name = d.name → d' = d := by
  induction ds generalizing r with
  | nil => cases hd
  | cons d₀ ds ih =>
    have hnew : r.contains d₀.name = false ∨ d₀.name ≠ d.name := by
      by_contra hboth
      rw [not_or, Bool.not_eq_false, not_not] at hboth
      obtain ⟨x, hx, hcls⟩ := exists_of_contains (List.mem_cons_self (l := ds)) hboth.1
      exact hclean x hx (hcls.trans (congrArg Name.text hboth.2))
    rw [declareAll_cons] at hclean ⊢
    have hrest : ∀ x ∈ ((d₀.declare r).1.declareAll ds).2, x.cls ≠ d.name.text :=
      fun x hx => hclean x (List.mem_append_right _ hx)
    by_cases hname : d₀.name = d.name
    · -- After the class with the name is declared, another one with it would be reported.
      have hheader : (d₀.declare r).1.get? d₀.name = some d₀.header := by
        rw [declare_eq, hnew.resolve_right (not_not.2 hname)]
        unfold get?
        have hnone := hnew.resolve_right (not_not.2 hname)
        rw [contains, get?, Option.isSome_eq_false_iff, Option.isNone_iff_eq_none] at hnone
        simp [List.find?_append, hnone, ClassDef.header]
      have hother : ∀ d' ∈ ds, d'.name ≠ d.name := by
        intro d' hd' heq
        have hcontains : (d₀.declare r).1.contains d'.name = true := by
          rw [contains, heq, ← hname, hheader]
          rfl
        obtain ⟨x, hx, hcls⟩ := exists_of_contains hd' hcontains
        exact hrest x hx (hcls.trans (congrArg Name.text heq))
      rcases List.mem_cons.1 hd with rfl | hd
      · refine ⟨get?_declareAll hheader ds, fun d' hd' heq => ?_⟩
        rcases List.mem_cons.1 hd' with rfl | hd'
        · rfl
        · exact absurd heq (hother d' hd')
      · exact absurd rfl (hother d hd)
    · rcases List.mem_cons.1 hd with rfl | hd
      · exact absurd rfl hname
      · obtain ⟨hget, hunique⟩ := ih hd hrest
        refine ⟨hget, fun d' hd' heq => ?_⟩
        rcases List.mem_cons.1 hd' with rfl | hd'
        · exact absurd heq hname
        · exact hunique d' hd' heq

/-- Entering the members of classes one after the other gives a class its own, if no other class has its name. -/
theorem get?_foldl_enterMembers {declared : Registry} {d : ClassDef} {ds : List ClassDef}
    (hunique : ∀ d' ∈ ds, d'.name = d.name → d' = d) {e : ClassEntry} (hget : r.get? d.name = some e)
    (he : { e with
      fields := (d.gatherFields declared).entries.toList
      methods := (d.gatherMethods declared).entries.toList
      constructors := (d.gatherConstructors declared).entries.toList } = d.entry declared)
    (hd : d ∈ ds ∨ e = d.entry declared) :
    (ds.foldl (fun r d => d.enterMembers declared r) r).get? d.name = some (d.entry declared) := by
  induction ds generalizing r e with
  | nil => rw [List.foldl_nil, hget, hd.resolve_left List.not_mem_nil]
  | cons d' ds ih =>
    rw [List.foldl_cons]
    have hrest : ∀ d'' ∈ ds, d''.name = d.name → d'' = d := fun d'' hd'' => hunique d'' (List.mem_cons_of_mem _ hd'')
    have hupdate : (d'.enterMembers declared r).get? d.name =
        if d.name = d'.name then (r.get? d.name).map (fun entry => { entry with
          fields := (d'.gatherFields declared).entries.toList
          methods := (d'.gatherMethods declared).entries.toList
          constructors := (d'.gatherConstructors declared).entries.toList }) else r.get? d.name :=
      get?_update fun _ => rfl
    by_cases hname : d.name = d'.name
    · obtain rfl := hunique d' List.mem_cons_self hname.symm
      refine ih hrest (e := d'.entry declared) ?_ rfl (.inr rfl)
      rw [hupdate, if_pos rfl, hget, Option.map_some, he]
    · refine ih hrest (e := e) ?_ he ?_
      · rw [hupdate, if_neg hname, hget]
      · rcases hd with hd | hd
        · rcases List.mem_cons.1 hd with rfl | hd
          · exact absurd rfl hname
          · exact .inl hd
        · exact .inr hd

/-- A class that no finding names is entered with its members. -/
theorem entered_resolve {d : ClassDef} {ds : List ClassDef} (hd : d ∈ ds)
    (hclean : ∀ x ∈ (r.resolve ds).2, x.cls ≠ d.name.text) :
    (r.resolve ds).1.Entered (r.declareAll ds).1 d := by
  rw [resolve] at hclean ⊢
  dsimp only at hclean ⊢
  obtain ⟨hheader, hunique⟩ := declareAll_clean hd fun x hx =>
    hclean x (List.mem_append_left _ (List.mem_append_left _ hx))
  refine ⟨get?_foldl_enterMembers hunique hheader rfl (.inl hd), ?_⟩
  refine ClassDef.about_checkDeclarations.eq_nil_of_forall fun x hx => ?_
  exact hclean x (List.mem_append_left _ (List.mem_append_right _ (List.mem_flatMap.2 ⟨d, hd, hx⟩)))

/-! ## Its members -/

namespace Entered

variable {declared : Registry} {d : ClassDef}

theorem chain_eq (h : r.Entered declared d) : ∃ rest, r.chain d.name = d.entry declared :: rest := by
  have hmem := (get?_eq_some h.get).1
  unfold chain
  cases hlength : r.classes.length with
  | zero =>
    rw [List.length_eq_zero_iff.1 hlength] at hmem
    cases hmem
  | succ n =>
    rw [chainFrom, h.get]
    exact ⟨_, rfl⟩

theorem fields (h : r.Entered declared d) :
    (d.entry declared).fields = d.fields.map d.fieldEntry ++ d.outerEntry? ∧ (d.fields.map FieldDef.name).Nodup ∧
      (d.isInner = true → outerField ∉ d.fields.map FieldDef.name) := by
  have hclean := h.clean
  simp only [ClassDef.checkDeclarations, List.append_eq_nil_iff] at hclean
  obtain ⟨hentries, -, hnames, houter⟩ := ClassDef.gatherFields_clean hclean.1.1.2
  exact ⟨hentries, hnames, houter⟩

/-- The fields that a class declares itself are found first. -/
theorem findField?_of_mem (h : r.Entered declared d) {f : FieldDef} (hf : f ∈ d.fields) :
    r.findField? d.name f.name = some (d.fieldEntry f) := by
  obtain ⟨rest, hchain⟩ := h.chain_eq
  obtain ⟨hentries, hnames, -⟩ := h.fields
  have hown : (d.entry declared).ownField? f.name = some (d.fieldEntry f) := by
    rw [ClassEntry.ownField?, hentries, List.find?_append, List.find?_map]
    cases hfind : d.fields.find? ((fun e : FieldEntry => decide (e.name = f.name)) ∘ d.fieldEntry) with
    | none => exact absurd (List.find?_eq_none.1 hfind f hf) (by simp [ClassDef.fieldEntry])
    | some f' =>
      have hdecide := List.find?_some hfind
      have hname : f'.name = f.name := of_decide_eq_true hdecide
      rw [List.inj_on_of_nodup_map hnames (List.mem_of_find?_eq_some hfind) hf hname]
      rfl
  rw [findField?, hchain, List.findSome?_cons, hown]

/-- The field for the outer instance is found first too. -/
theorem findField?_outer (h : r.Entered declared d) {outer : Name} (houter : d.outerClass? = some outer) :
    r.findField? d.name outerField = some ⟨d.name, outerField, .ref outer, outerFieldModifiers⟩ := by
  obtain ⟨rest, hchain⟩ := h.chain_eq
  obtain ⟨hentries, -, hnew⟩ := h.fields
  have hinner : d.isInner = true := by
    unfold ClassDef.outerClass? at houter
    split at houter
    · assumption
    · cases houter
  have hown : (d.entry declared).ownField? outerField = some ⟨d.name, outerField, .ref outer, outerFieldModifiers⟩ := by
    rw [ClassEntry.ownField?, hentries, List.find?_append, ClassDef.outerEntry?, houter]
    have hnone : (d.fields.map d.fieldEntry).find? (·.name = outerField) = none := by
      refine List.find?_eq_none.2 fun e he heq => ?_
      obtain ⟨f, hf, rfl⟩ := List.mem_map.1 he
      exact hnew hinner (List.mem_map.2 ⟨f, hf, of_decide_eq_true heq⟩)
    rw [hnone]
    simp
  rw [findField?, hchain, List.findSome?_cons, hown]

/-- No method calls the superclass constructor. -/
theorem callsSuper_method (h : r.Entered declared d) {m : MethodDef} (hm : m ∈ d.methods) {body : List Stmt}
    (hbody : m.body = some body) : anyCallsSuper body = false := by
  have hclean := h.clean
  simp only [ClassDef.checkDeclarations, List.append_eq_nil_iff] at hclean
  have hmethod := ((ClassDef.gatherMethods_clean hclean.1.2).2.1 m hm).body
  simp only [ClassDef.checkMethodBody, hbody, List.append_eq_nil_iff] at hmethod
  exact Site.callsSuper_of_checkBody hmethod.2

theorem isStatic_constructor (h : r.Entered declared d) {k : ConstructorDef} (hk : k ∈ d.allConstructors) :
    k.modifiers.isStatic = false := by
  have hclean := h.clean
  simp only [ClassDef.checkDeclarations, List.append_eq_nil_iff] at hclean
  unfold ClassDef.allConstructors at hk
  split at hk
  · rw [List.mem_singleton.1 hk]
    decide
  · exact ((ClassDef.gatherConstructors_clean hclean.2).2.1 k hk).modifiers.1

/-- A constructor calls the superclass constructor nowhere but at its start. -/
theorem callsSuper_constructor (h : r.Entered declared d) {k : ConstructorDef} (hk : k ∈ d.allConstructors) :
    anyCallsSuper (splitSuperCall k.body).2 = false := by
  have hclean := h.clean
  simp only [ClassDef.checkDeclarations, List.append_eq_nil_iff] at hclean
  unfold ClassDef.allConstructors at hk
  split at hk
  · rw [List.mem_singleton.1 hk]
    rfl
  · exact Site.callsSuper_of_checkBody ((ClassDef.gatherConstructors_clean hclean.2).2.1 k hk).body

end Entered

end Registry

end ClassTree
