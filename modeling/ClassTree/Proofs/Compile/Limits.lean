import ClassTree.Compile
import ClassTree.Proofs.Outcome

/-!
# Code that is made up to limits

`Gen.Settles E x Q`: whatever constants are in the pool, `x` makes something with `Q`, or ends in a finding with `E`. There is
one rule for each way in which code is made. If the making of every method of a class settles so, then either its class file
is made, or all that prevents it is a limit of class files or one of these findings (`LoweredClass.generate_settles`).
-/

namespace ClassTree

/-- The finding that something is too large for a class file. -/
def Diagnostic.IsLimit (d : Diagnostic) : Prop := d.code = .codegenLimit

namespace Gen

theorem bind_ok_cases {α β : Type} {x : Gen α} {f : α → Gen β} {p q : Pool} {b : β} (h : (x >>= f) p = .ok b q) :
    ∃ a p', x p = .ok a p' ∧ f a p' = .ok b q := by
  change EStateM.bind x f p = .ok b q at h
  unfold EStateM.bind at h
  cases hx : x p with
  | ok a p' =>
    rw [hx] at h
    exact ⟨a, p', rfl, h⟩
  | error d p' =>
    rw [hx] at h
    cases h

theorem bind_error_cases {α β : Type} {x : Gen α} {f : α → Gen β} {p q : Pool} {d : Diagnostic}
    (h : (x >>= f) p = .error d q) : x p = .error d q ∨ ∃ a p', x p = .ok a p' ∧ f a p' = .error d q := by
  change EStateM.bind x f p = .error d q at h
  unfold EStateM.bind at h
  cases hx : x p with
  | ok a p' =>
    rw [hx] at h
    exact .inr ⟨a, p', rfl, h⟩
  | error d' p' =>
    rw [hx] at h
    cases h
    exact .inl rfl

theorem instr_ok_cases {make : Pool → Instr × Pool} {p q : Pool} {b : Block} (h : Gen.instr make p = .ok b q) :
    b = .one (make p).1 ∧ q = (make p).2 := by
  cases h
  exact ⟨rfl, rfl⟩

/-- Something with `Q` is made, or else there is a finding with `E`. -/
structure Settles {α : Type} (E : Diagnostic → Prop) (x : Gen α) (Q : α → Prop) : Prop where
  made {p : Pool} {a : α} {p' : Pool} : x p = .ok a p' → Q a
  failed {p : Pool} {d : Diagnostic} {p' : Pool} : x p = .error d p' → E d

namespace Settles

variable {α β : Type} {E E' : Diagnostic → Prop} {Q Q' : α → Prop} {R : β → Prop}

theorem pure {a : α} (h : Q a) : Settles E (Pure.pure a) Q where
  made heq := by
    cases heq
    exact h
  failed heq := nomatch heq

theorem throw {d : Diagnostic} (h : E d) : Settles E (MonadExcept.throw d : Gen α) Q where
  made heq := nomatch heq
  failed heq := by
    cases heq
    exact h

theorem bind {x : Gen α} {f : α → Gen β} (hx : Settles E x Q) (hf : ∀ a, Q a → Settles E (f a) R) :
    Settles E (x >>= f) R where
  made {p b q} heq := by
    obtain ⟨a, q', hxp, hfq⟩ := bind_ok_cases heq
    exact (hf a (hx.made hxp)).made hfq
  failed {p d q} heq := by
    rcases bind_error_cases heq with hxp | ⟨a, q', hxp, hfq⟩
    · exact hx.failed hxp
    · exact (hf a (hx.made hxp)).failed hfq

theorem mono {x : Gen α} (hx : Settles E x Q) (hE : ∀ d, E d → E' d) (hQ : ∀ a, Q a → Q' a) : Settles E' x Q' where
  made heq := hQ _ (hx.made heq)
  failed heq := hE _ (hx.failed heq)

theorem imp {x : Gen α} (hx : Settles E x Q) (hQ : ∀ a, Q a → Q' a) : Settles E x Q' := hx.mono (fun _ h => h) hQ

/-- The rule for what comes after something that is known not to depend on the pool. -/
theorem ofExcept_bind {x : Except Diagnostic α} {f : α → Gen β} {a : α} (hx : x = .ok a) (hf : Settles E (f a) R) :
    Settles E (Gen.ofExcept x >>= f) R := by
  rw [hx]
  exact hf

theorem modifyGet (f : Pool → α × Pool) : Settles E (MonadStateOf.modifyGet f : Gen α) fun _ => True where
  made _ := trivial
  failed heq := nomatch heq

theorem instr (make : Pool → Instr × Pool) : Settles E (Gen.instr make) fun _ => True := modifyGet _

end Settles

end Gen

open Gen

/-! ## Parts of code -/

theorem Context.literal_settles (c : Context) (l : Literal) : Settles Diagnostic.IsLimit (c.literal l) fun _ => True := by
  cases l with
  | null | bool b => exact .pure trivial
  | int n => exact .instr (·.pushInt n)
  | long n => exact .instr (·.pushLong n)
  | double d => exact .instr (·.pushDouble d)
  | str s =>
    rw [Context.literal]
    split
    · exact .instr _
    · exact .throw rfl

theorem Context.argCount_settles (c : Context) (n : Nat) : Settles Diagnostic.IsLimit (c.argCount n) fun _ => True := by
  unfold Context.argCount
  split
  · exact .pure trivial
  · exact .throw rfl

theorem pushDefault_settles (t : Ty) : Settles Diagnostic.IsLimit (pushDefault t) fun _ => True := by
  cases t with
  | int => exact .instr (·.pushInt 0)
  | long => exact .instr (·.pushLong 0)
  | double => exact .instr (·.pushDouble (.zero false))
  | _ => exact .pure trivial

theorem compileMethod_finish_settles (c : Context) (code : Block) (scope : Scope) :
    Settles Diagnostic.IsLimit (compileMethod.finish c code scope) fun _ => True := by
  unfold compileMethod.finish
  split
  · exact .throw rfl
  · exact .pure trivial

/-! ## Class files -/

namespace LoweredClass

variable {b : Binding} {r : Registry} {entry : ClassEntry} {E : LoweredMethod → Diagnostic → Prop}

/-- The last part of a table is made when all others are. -/
theorem table_concat {α β : Type} (make : α → Pool → β × Pool) (items : List α) (a : α) (p : Pool) :
    table make (items ++ [a]) p =
      ((table make items p).1.push (make a (table make items p).2).1, (make a (table make items p).2).2) := by
  rw [table, table, List.foldl_append]
  rfl

theorem methodInfo_settles {m : LoweredMethod}
    (h : Settles (E m) (compileMethod b (context r entry m) m) fun _ => True) :
    Settles (E m) (methodInfo b r entry m) fun _ => True :=
  .bind h fun _ _ => .bind (.modifyGet _) fun _ _ => .bind (.modifyGet _) fun _ _ => .pure trivial

theorem of_mem_methodTable {ms : List LoweredMethod} (h : ∀ m ∈ ms, Settles (E m) (methodInfo b r entry m) fun _ => True)
    {done : Array MethodInfo} {found : Array Diagnostic} {p : Pool} :
    ∀ d ∈ (methodTable b r entry ms done found p).1.2, d ∈ found ∨ ∃ m ∈ ms, E m d := by
  induction ms generalizing done found p with
  | nil => exact fun d hd => .inl hd
  | cons m ms ih =>
    intro d hd
    rw [methodTable] at hd
    split at hd
    · rcases ih (fun m' hm' => h m' (List.mem_cons_of_mem _ hm')) d hd with hfound | ⟨m', hm', hE⟩
      · exact .inl hfound
      · exact .inr ⟨m', List.mem_cons_of_mem _ hm', hE⟩
    · rename_i failed p' heq
      rcases ih (fun m' hm' => h m' (List.mem_cons_of_mem _ hm')) d hd with hfound | ⟨m', hm', hE⟩
      · rcases Array.mem_push.1 hfound with hfound | rfl
        · exact .inl hfound
        · exact .inr ⟨m, List.mem_cons_self, (h m List.mem_cons_self).failed heq⟩
      · exact .inr ⟨m', List.mem_cons_of_mem _ hm', hE⟩

theorem isLimit_of_mem_limitErrors {name : String} {f : ClassFile} {overflowed : Bool} {d : Diagnostic}
    (h : d ∈ limitErrors name f overflowed) : d.IsLimit := by
  simp only [limitErrors, List.mem_append, List.mem_map] at h
  rcases h with (⟨_, -, rfl⟩ | ⟨_, -, rfl⟩) | h
  · rfl
  · rfl
  · split at h
    · rw [List.mem_singleton.1 h]
      rfl
    · cases h

theorem assemble_settles {l : LoweredClass} {ds : List Diagnostic}
    (h : ∀ m ∈ l.methods, Settles (E m) (compileMethod b (context r entry m) m) fun _ => True)
    (hfailed : l.assemble b r entry = .error ds) : ∀ d ∈ ds, d.IsLimit ∨ ∃ m ∈ l.methods, E m d := by
  simp only [assemble] at hfailed
  split at hfailed
  · cases hfailed
  · cases hfailed
    intro d hd
    rcases List.mem_append.1 hd with hd | hd
    · rcases of_mem_methodTable (fun m hm => methodInfo_settles (h m hm)) d (Array.mem_toList_iff.1 hd) with hnone | hm
      · exact absurd hnone (Array.not_mem_empty _)
      · exact .inr hm
    · exact .inl (isLimit_of_mem_limitErrors hd)

theorem generate_of_encode {l : LoweredClass} {f : ClassFile} {bytes : Bytes} (hentry : r.get? l.name = some entry)
    (hassemble : l.assemble b r entry = .ok f) (hencode : f.encode = .ok bytes) : l.generate b r = .ok bytes := by
  rw [generate, hentry]
  refine bind_eq_ok.2 ⟨f, hassemble, ?_⟩
  rw [hencode]
  rfl

theorem generate_of_encode_error {l : LoweredClass} {f : ClassFile} {e : FormatError} (hentry : r.get? l.name = some entry)
    (hassemble : l.assemble b r entry = .ok f) (hencode : f.encode = .error e) :
    l.generate b r = .error [.ofClass .codegenLimit l.name.text e.message] := by
  rw [generate, hentry]
  dsimp only
  rw [hassemble]
  change Except.bind _ _ = _
  rw [Except.bind, hencode]
  rfl

/-- If the making of every method settles, the class file is made, or all that prevents it is limits and the findings that
its methods end in. -/
theorem generate_settles {l : LoweredClass} (hentry : r.get? l.name = some entry)
    (h : ∀ m ∈ l.methods, Settles (E m) (compileMethod b (context r entry m) m) fun _ => True) :
    (∃ bytes, l.generate b r = .ok bytes) ∨
      ∃ ds, l.generate b r = .error ds ∧ ∀ d ∈ ds, d.IsLimit ∨ ∃ m ∈ l.methods, E m d := by
  cases hassemble : l.assemble b r entry with
  | error ds =>
    refine .inr ⟨ds, ?_, assemble_settles h hassemble⟩
    rw [generate, hentry]
    dsimp only
    rw [hassemble]
    rfl
  | ok file =>
    cases hencode : file.encode with
    | ok bytes => exact .inl ⟨bytes, generate_of_encode hentry hassemble hencode⟩
    | error e =>
      refine .inr ⟨_, generate_of_encode_error hentry hassemble hencode, fun d hd => .inl ?_⟩
      rw [List.mem_singleton.1 hd]
      rfl

end LoweredClass

end ClassTree
