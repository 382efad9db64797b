import TaggedLisp.Proofs.Ir.Numbering
import TaggedLisp.Proofs.Machine.Renumbering
import TaggedLisp.Session

/-!
# Ways to compile a program

A program can be compiled with or without dropping copies from its blocks, and its machine code can
be made without making blocks at all. The passes hand nothing to each other but the next number, so
these ways agree: `compilations_agree`. Copies are dropped after the blocks have drawn their
numbers, and without blocks the translation starts at a smaller number, which shows in the labels
only.
-/

namespace TaggedLisp.Session

/-! ## Steps -/

variable {α : Type}

@[simp] theorem outcome_ofExcept (r : Except Fault α) (s : Session) :
    (ofExcept r).outcome s = (r, s) := rfl

@[simp] theorem outcome_lower (es : List Expr) (s : Session) :
    (lower es).outcome s = (((lowerAll es).outcome (.start s.next)).1,
      { s with next := ((lowerAll es).outcome (.start s.next)).2.next }) := rfl

@[simp] theorem outcome_blocks (trees : List Ir.Tree) (s : Session) :
    (blocks trees).outcome s =
      let (bs, next) := (Ir.blocks trees).run s.next
      (.ok (if s.optimize then Ir.withoutCopies bs else bs), { s with next := next }) := rfl

@[simp] theorem outcome_translate (es : List Expr) (s : Session) :
    (translate es).outcome s = (((translateAll es).outcome (.start s.next)).1.map fun _ ↦
      ((translateAll es).outcome (.start s.next)).2.program,
      { s with next := ((translateAll es).outcome (.start s.next)).2.next }) := rfl

/-! ## Agreement -/

/-- **The ways to compile a program agree.** In new sessions, a text is compiled with copies and
without them and to code alone with the same fault each time, or with success each time. Then the
two compilations differ in their blocks only, from which copies are dropped, and the code made alone
has in each of its labels the number of the other code less `d`. That is how many numbers were drawn
for the blocks. -/
theorem compilations_agree (source : String) :
    let compilation (optimize : Bool) := ((compile source).outcome (.start optimize)).1
    let code := ((compileToCode source).outcome (.start true)).1
    (∃ f, compilation true = .error f ∧ compilation false = .error f ∧ code = .error f) ∨
    ∃ c p l d,
      compilation false = .ok c ∧
      compilation true = .ok { c with blocks := Ir.withoutCopies c.blocks } ∧
      code = .ok p ∧
      (lowerAll c.exprs).outcome (.start 0) = (.ok c.trees, l) ∧
      (Ir.blocks c.trees).run l.next = (c.blocks, l.next + d) ∧
      c.program = p.renumber (· + d) ∧ p = c.program.renumber (· - d) := by
  simp only [compile, compileForms, compileToCode, Pass.outcome_bind, outcome_ofExcept]
  rcases read source with f | forms
  · exact .inl ⟨f, rfl, rfl, rfl⟩
  dsimp only
  rcases checkProgram forms with f | ⟨es, types⟩
  · exact .inl ⟨f, rfl, rfl, rfl⟩
  simp only [outcome_lower, start]
  rcases hlower : (lowerAll es).outcome (.start 0) with ⟨f | trees, l⟩
  · exact .inl ⟨f, rfl, rfl, rfl⟩
  rcases hblocks : (Ir.blocks trees).run l.next with ⟨bs, next⟩
  obtain ⟨d, rfl⟩ := Nat.exists_eq_add_of_le (Ir.draws_blocks hblocks).le
  simp only [outcome_blocks, hblocks, outcome_translate, Machine.translateAll_raised]
  rcases (translateAll es).outcome (.start l.next) with ⟨f | _, t⟩
  · exact .inl ⟨f, rfl, rfl, rfl⟩
  · refine .inr ⟨_, t.program, l, d, rfl, rfl, rfl, hlower, hblocks, ?_, ?_⟩
    · exact t.program_raised d
    · have hback : Function.LeftInverse (· - d) (· + d) := fun n ↦ Nat.add_sub_cancel n d
      rw [t.program_raised d]
      exact (Machine.Program.renumber_leftInverse hback t.program).symm

end TaggedLisp.Session
