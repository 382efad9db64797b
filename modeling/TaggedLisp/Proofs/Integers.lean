import Mathlib.Algebra.Group.Int.Defs
import TaggedLisp.Proofs.Machine.Emission
import TaggedLisp.Proofs.Scoping

/-!
# Integers in tagged words

The bits of an integer are shifted past the tag, so three of them are lost. An integer comes back
from its word by an arithmetic shift exactly when the checker accepts it as a literal. The integers
of a form that is accepted are those of its expression, in the same order, and all of them come back
(`integers_kept`), wherever they stand: in calls, bindings, branches, bodies and data.
-/

namespace TaggedLisp

open Machine

/-- Whether the checker accepts the integer as a literal. -/
def Taggable (n : Int64) : Prop := Check.minInteger ≤ n ∧ n ≤ Check.maxInteger

instance (n : Int64) : Decidable (Taggable n) := inferInstanceAs (Decidable (_ ∧ _))

/-! ## Words -/

theorem taggable_iff {n : Int64} : Taggable n ↔ -2 ^ 60 ≤ n.toInt ∧ n.toInt < 2 ^ 60 := by
  have hmin : Check.minInteger.toInt = -2 ^ 60 := by decide
  have hmax : Check.maxInteger.toInt = 2 ^ 60 - 1 := by decide
  rw [Taggable, Int64.le_iff_toInt_le, Int64.le_iff_toInt_le, hmin, hmax, Int.le_sub_one_iff]

/-- The bits of the tag are free once an integer is shifted. -/
theorem toBitVec_integerWord (n : Int64) :
    (integerWord n).toBitVec = Word.tagged (n.toBitVec <<< 3) .int := rfl

theorem toNat_shiftLeft_mod_eight (w : Word) : (w <<< 3).toNat % 8 = 0 := by
  rw [BitVec.toNat_shiftLeft, Nat.shiftLeft_eq]
  omega

theorem hasTag_integerWord (n : Int64) : Word.hasTag (integerWord n).toBitVec .int = true :=
  hasTag_tagged (toNat_shiftLeft_mod_eight _) .int

/-- The word of an integer is eight times the integer, and the tag, as far as they fit. -/
theorem toInt_integerWord (n : Int64) :
    (integerWord n).toBitVec.toInt = (8 * n.toInt + 2).bmod (2 ^ 64) := by
  have hfree : n.toBitVec <<< 3 &&& 2#64 = 0#64 := by
    have hmask : 2#64 = Tag.mask.toBitVec &&& 2#64 := rfl
    rw [hmask, ← BitVec.and_assoc, and_mask (toNat_shiftLeft_mod_eight _), BitVec.zero_and]
  have hsum : (integerWord n).toBitVec = BitVec.ofInt 64 (8 * n.toInt + 2) := by
    calc n.toBitVec <<< 3 ||| 2#64
        = n.toBitVec <<< 3 + 2#64 := (BitVec.add_eq_or_of_and_eq_zero _ _ hfree).symm
      _ = BitVec.ofInt 64 (8 * n.toInt + 2) := by
        rw [BitVec.ofInt_add, BitVec.ofInt_mul, ofInt_toInt, BitVec.shiftLeft_eq_mul_twoPow,
          BitVec.mul_comm]
        rfl
  rw [hsum, BitVec.toInt_ofInt]

/-- An integer comes back from its word exactly when it is accepted. -/
theorem sshiftRight_integerWord {n : Int64} :
    (integerWord n).toBitVec.sshiftRight 3 = n.toBitVec ↔ Taggable n := by
  have hmin : -2 ^ 63 ≤ n.toInt := n.le_toInt
  have hmax : n.toInt < 2 ^ 63 := n.toInt_lt
  rw [← BitVec.toInt_inj, BitVec.toInt_sshiftRight, toInt_integerWord, taggable_iff,
    Int.shiftRight_eq_div_pow, Int.bmod_def]
  change _ = n.toInt ↔ _
  omega

/-! ## Where integers stand -/

mutual

/-- The integers of a form, from left to right. -/
def Form.numbers : Form → List Int64
  | .atom (.number n) _ => [n]
  | .atom .nil _ | .atom (.boolean _) _ | .atom (.string _) _ | .atom (.symbol _) _ => []
  | .group _ elems _ => numbersAll elems

/-- The integers of several forms, from left to right. -/
def Form.numbersAll : List Form → List Int64
  | [] => []
  | f :: fs => f.numbers ++ numbersAll fs

end

mutual

/-- The integers of an expression, from left to right. -/
def Expr.numbers : Expr → List Int64
  | .literal (.number n) _ => [n]
  | .literal .nil _ | .literal (.boolean _) _ | .literal (.string _) _ | .symbol _ _ => []
  | .group _ elems _ => numbersAll elems
  | .cond test yes no _ => test.numbers ++ (yes.numbers ++ no.numbers)
  | .letIn bindings body _ => numbersOf bindings ++ body.numbers
  | .fn _ body _ => body.numbers
  | .seq steps _ => numbersAll steps
  | .call callee args _ _ => callee.numbers ++ numbersAll args

/-- The integers of several expressions, from left to right. -/
def Expr.numbersAll : List Expr → List Int64
  | [] => []
  | e :: es => e.numbers ++ numbersAll es

/-- The integers of the values in a `let`, from left to right. -/
def Expr.numbersOf : List (String × Expr) → List Int64
  | [] => []
  | (_, value) :: bs => value.numbers ++ numbersOf bs

end

theorem Form.numbers_of_symbol? {f : Form} {name : String} (h : f.symbol? = some name) :
    f.numbers = [] := by
  cases f with
  | atom a t => cases a <;> first | rfl | cases h
  | group shape elems t => cases h

/-- The integers `ns` were made of the integers `ms` of a form that is accepted. -/
structure Keeps (ns ms : List Int64) : Prop where
  eq : ns = ms
  taggable : ∀ n ∈ ms, Taggable n

namespace Keeps

variable {ns ms ns' ms' : List Int64}

theorem nil : Keeps [] [] := ⟨rfl, List.forall_mem_nil _⟩

theorem append (h : Keeps ns ms) (h' : Keeps ns' ms') : Keeps (ns ++ ns') (ms ++ ms') where
  eq := by rw [h.eq, h'.eq]
  taggable := List.forall_mem_append.mpr ⟨h.taggable, h'.taggable⟩

end Keeps

/-! ## Checking -/

namespace Check

open Pass

theorem keeps_atom (a : Atom) (t : Token) :
    Gives (atom a t) fun e ↦ Keeps e.numbers (Form.atom a t).numbers := by
  cases a with
  | nil | boolean b | string s => exact .pure .nil
  | number n =>
    rw [atom]
    split
    · next hn => exact .pure ⟨rfl, List.forall_mem_singleton.mpr hn⟩
    · exact .fail
  | symbol name =>
    refine Gives.bind .trivial fun c _ ↦ ?_
    split
    · exact .fail
    · exact .pure .nil

/-- Only symbols stand where the name and the parameters of a function do. -/
theorem keeps_fnHead (op : Token) (isGlobal : Bool) (name : Option Form) (params : Form) :
    Gives (fnHead op isGlobal name params) fun _ ↦
      (∀ f ∈ name, f.numbers = []) ∧ params.numbers = [] := by
  have hparams : Gives (paramNames op params) fun _ ↦ params.numbers = [] := by
    cases params with
    | atom a t => exact .fail
    | group shape elems t =>
      cases shape with
      | list => exact .fail
      | vector =>
        rw [paramNames]
        split
        · next names h =>
          refine .pure ?_
          have hall := Scopes.forall₂_of_mapM h
          clear h
          rw [Form.numbers]
          induction hall with
          | nil => rfl
          | cons hx _ ih => rw [Form.numbersAll, Form.numbers_of_symbol? hx, ih, List.append_nil]
        · exact .fail
  have hparts (own : Option String) (hname : ∀ f ∈ name, f.numbers = []) :
      Gives (headOf op isGlobal params own) fun _ ↦
        (∀ f ∈ name, f.numbers = []) ∧ params.numbers = [] :=
    Gives.bind hparams fun _ h ↦ Gives.bind .trivial fun _ _ ↦ .pure ⟨hname, h⟩
  cases name with
  | none =>
    refine Gives.bind .trivial fun c _ ↦ ?_
    dsimp only
    split
    · exact .fail
    · exact hparts none (by simp)
  | some form =>
    refine Gives.bind .trivial fun c _ ↦ ?_
    dsimp only
    split
    · exact .fail
    · split
      · next own hown => exact hparts (some own) (by simpa using Form.numbers_of_symbol? hown)
      · exact .fail

theorem keeps_fn (op : Token) (h : FnHead) {body : Check Expr} {ms : List Int64}
    (hbody : Gives body fun e ↦ Keeps e.numbers ms) :
    Gives (fn op h body) fun e ↦ Keeps e.numbers ms := by
  refine Gives.bind (P := fun r ↦ Keeps r.1.numbers ms) ?_ ?_
  · refine Gives.between (Gives.bind .trivial fun params _ ↦ Gives.bind hbody fun e he ↦ ?_)
    exact Gives.bind .trivial fun _ _ ↦ .pure he
  · rintro ⟨e, params⟩ he
    dsimp only
    split
    · exact Gives.bind .trivial fun _ _ ↦ .pure he
    · exact .pure he

theorem keeps_cond (op : Token) (test yes no : Expr) {ms : List Int64}
    (h : Keeps (test.numbers ++ (yes.numbers ++ no.numbers)) ms) :
    Gives (cond op test yes no) fun e ↦ Keeps e.numbers ms := by
  refine Gives.bind .trivial fun agree _ ↦ ?_
  split
  · exact .pure h
  · exact Gives.bind .trivial fun _ _ ↦ Gives.bind .trivial fun _ _ ↦ .fail

theorem keeps_call (op : Form) (callee : Expr) (args : List Expr) {ms : List Int64}
    (h : Keeps (callee.numbers ++ Expr.numbersAll args) ms) :
    Gives (call op callee args) fun e ↦ Keeps e.numbers ms :=
  Gives.bind .trivial fun _ _ ↦ .pure h

theorem numbers_seq (op : Token) (steps : List Expr) :
    (seq op steps).numbers = Expr.numbersAll steps := by
  rw [seq]
  split
  · next hlast =>
    rw [List.getLast?_eq_none_iff.mp hlast]
    rfl
  · rfl

end Check

mutual

theorem Form.checkDatum_numbers : ∀ f : Form,
    Pass.Gives f.checkDatum fun e ↦ Keeps e.numbers f.numbers
  | .atom a t => Check.keeps_atom a t
  | .group _ elems _ => .bind (checkData_numbers elems) fun _ h ↦ .pure h

theorem checkData_numbers : ∀ fs : List Form,
    Pass.Gives (checkData fs) fun es ↦ Keeps (Expr.numbersAll es) (Form.numbersAll fs)
  | [] => .pure .nil
  | f :: fs => .bind f.checkDatum_numbers fun _ he ↦ .bind (checkData_numbers fs) fun _ hes ↦
      .pure (he.append hes)

end

mutual

/-- The integers of a form are those of the expression that is made of it. -/
theorem Form.check_numbers : ∀ f : Form, Pass.Gives f.check fun e ↦ Keeps e.numbers f.numbers
  | .atom a t => Check.keeps_atom a t
  | .group .vector elems _ => .bind (checkData_numbers elems) fun _ h ↦ .pure h
  | .group .list [] _ => .pure .nil
  | .group .list (.group .list elems t' :: args) t => by
    rw [Form.check]
    refine .bind (Form.check_numbers (.group .list elems t')) fun callee hcallee ↦ ?_
    refine .bind (checkAll_numbers args) fun args' hargs ↦ ?_
    exact Check.keeps_call _ _ _ (hcallee.append hargs)
  | .group .list (.group .vector _ _ :: _) _
  | .group .list (.atom .nil _ :: _) _ | .group .list (.atom (.boolean _) _ :: _) _
  | .group .list (.atom (.number _) _ :: _) _ | .group .list (.atom (.string _) _ :: _) _ =>
    Pass.Gives.fail
  | .group .list (.atom (.symbol name) opToken :: args) t => by
    change Pass.Gives _ fun e : Expr ↦ Keeps e.numbers (Form.numbersAll args)
    unfold Form.check
    dsimp only
    split
    · split
      · next datum =>
        rw [Form.numbersAll, Form.numbersAll, List.append_nil]
        exact datum.checkDatum_numbers
      · exact .fail
    · exact checkCond_numbers opToken args
    · exact checkFn_numbers opToken false args
    · exact checkFn_numbers opToken true args
    · exact checkLet_numbers opToken args
    · exact .bind (checkAll_numbers args) fun steps h ↦
        .pure ((Check.numbers_seq opToken steps).symm ▸ h)
    · refine .bind (Check.keeps_atom (.symbol name) opToken) fun callee hcallee ↦ ?_
      exact .bind (checkAll_numbers args) fun args' hargs ↦
        Check.keeps_call _ _ _ (hcallee.append hargs)

theorem checkAll_numbers : ∀ fs : List Form,
    Pass.Gives (checkAll fs) fun es ↦ Keeps (Expr.numbersAll es) (Form.numbersAll fs)
  | [] => .pure .nil
  | f :: fs => .bind f.check_numbers fun _ he ↦ .bind (checkAll_numbers fs) fun _ hes ↦
      .pure (he.append hes)

theorem checkCond_numbers (op : Token) : ∀ fs : List Form,
    Pass.Gives (checkCond op fs) fun e ↦ Keeps e.numbers (Form.numbersAll fs)
  | [test, yes] => .bind test.check_numbers fun _ htest ↦ .bind yes.check_numbers fun _ hyes ↦
    Check.keeps_cond _ _ _ _ (htest.append (hyes.append .nil))
  | [test, yes, no] => .bind test.check_numbers fun _ htest ↦ .bind yes.check_numbers fun _ hyes ↦
    .bind no.check_numbers fun _ hno ↦ by
      rw [Form.numbersAll, Form.numbersAll, Form.numbersAll, Form.numbersAll, List.append_nil]
      exact Check.keeps_cond _ _ _ _ (htest.append (hyes.append hno))
  | [] | [_] | _ :: _ :: _ :: _ :: _ => .fail

theorem checkFn_numbers (op : Token) (isGlobal : Bool) : ∀ fs : List Form,
    Pass.Gives (checkFn op isGlobal fs) fun e ↦ Keeps e.numbers (Form.numbersAll fs)
  | [name, params, body] => .bind (Check.keeps_fnHead op isGlobal (some name) params)
    fun h hhead ↦ by
      have hnumbers : Form.numbersAll [name, params, body] = body.numbers := by
        simp [Form.numbersAll, hhead.1 name rfl, hhead.2]
      rw [hnumbers]
      exact Check.keeps_fn op h body.check_numbers
  | [params, body] => by
    cases isGlobal with
    | true => exact .fail
    | false =>
      refine .bind (Check.keeps_fnHead op false none params) fun h hhead ↦ ?_
      have hnumbers : Form.numbersAll [params, body] = body.numbers := by
        simp [Form.numbersAll, hhead.2]
      rw [hnumbers]
      exact Check.keeps_fn op h body.check_numbers
  | [] | [_] | _ :: _ :: _ :: _ :: _ => .fail

theorem checkLet_numbers (op : Token) : ∀ fs : List Form,
    Pass.Gives (checkLet op fs) fun e ↦ Keeps e.numbers (Form.numbersAll fs)
  | [.atom _ _, _] | [.group .list _ _, _] => .fail
  | [.group .vector pairs _, body] => by
    rw [checkLet]
    split
    · rw [Form.numbersAll, Form.numbersAll, Form.numbersAll, Form.numbers, List.append_nil]
      exact .between (.bind (checkPairs_numbers op pairs) fun bs hbs ↦
        .bind body.check_numbers fun e he ↦ .pure (hbs.append he))
    · exact .fail
  | [] | [_] | _ :: _ :: _ :: _ => .fail

theorem checkPairs_numbers (op : Token) : ∀ fs : List Form,
    Pass.Gives (checkPairs op fs) fun bs ↦ Keeps (Expr.numbersOf bs) (Form.numbersAll fs)
  | [] => .pure .nil
  | [_] => .fail
  | name :: value :: rest => by
    rw [checkPairs]
    split
    · exact .fail
    · next own hown =>
      rw [Form.numbersAll, Form.numbersAll, Form.numbers_of_symbol? hown, List.nil_append]
      exact .bind value.check_numbers fun e he ↦ .bind .trivial fun _ _ ↦
        .bind (checkPairs_numbers op rest) fun bs hbs ↦ .pure (he.append hbs)

end

/-! ## Machine code -/

/-- The code of an integer is one instruction, wherever it stands. -/
theorem translate_number (n : Int64) (note : Note) (t : Translator) :
    (Expr.literal (.number n) note).translate.outcome t
      = (.ok (), t.emitted [.mov .rax (.const (integerWord n).toInt)] t.activation.depth) :=
  Translate.outcome_emit t _

/-- **Integers survive tagging.** The code of an integer puts one word into `rax`, of which the low
bits are the tag of integers, and which shifts back to the integer exactly when the integer is in
the range of literals that are accepted. Whenever forms are accepted, their integers are those of
the expressions, in the same order, and all of them shift back, so different ones have different
words. -/
theorem integers_kept {fs : List Form} {es : List Expr} {c c' : Checker}
    (h : (checkAll fs).outcome c = (.ok es, c')) :
    (∀ n : Int64,
      (∀ note t, (Expr.literal (.number n) note).translate.outcome t
        = (.ok (), t.emitted [.mov .rax (.const (integerWord n).toInt)] t.activation.depth)) ∧
      (∀ address σ, (Instr.mov .rax (.const (integerWord n).toInt)).action address σ
        = .next (σ.set .rax (integerWord n).toBitVec)) ∧
      (integerWord n).toBitVec &&& 0b111#64 = 0b010#64 ∧
      ((integerWord n).toBitVec.sshiftRight 3 = n.toBitVec ↔ Taggable n) ∧
      ∀ token s, ((Form.atom (.number n) token).check.outcome s).1.toBool = true ↔ Taggable n) ∧
    Expr.numbersAll es = Form.numbersAll fs ∧
    (∀ n ∈ Form.numbersAll fs,
      Taggable n ∧ (integerWord n).toBitVec.sshiftRight 3 = n.toBitVec) ∧
    ∀ m ∈ Form.numbersAll fs, ∀ n ∈ Form.numbersAll fs, integerWord m = integerWord n → m = n := by
  obtain ⟨heq, htaggable⟩ := checkAll_numbers fs h
  have hback : ∀ n ∈ Form.numbersAll fs, (integerWord n).toBitVec.sshiftRight 3 = n.toBitVec :=
    fun n hn ↦ sshiftRight_integerWord.mpr (htaggable n hn)
  refine ⟨fun n ↦ ⟨translate_number n, fun address σ ↦ ?_, ?_, sshiftRight_integerWord,
    fun token s ↦ ?_⟩, heq, fun n hn ↦ ⟨htaggable n hn, hback n hn⟩, fun m hm n hn hword ↦ ?_⟩
  · rw [Instr.action, ofInt_toInt]
  · exact eq_of_beq (hasTag_integerWord n)
  · have hatom : (Form.atom (.number n) token).check = Check.atom (.number n) token := rfl
    rw [hatom, Check.atom]
    split
    · next hn => exact iff_of_true rfl hn
    · next hn => exact iff_of_false (by simp [Except.toBool]) hn
  · rw [← Int64.toBitVec_inj, ← hback m hm, hword, hback n hn]

/-- The form `(let [x 1152921504606846975] (do '([-1152921504606846976] -1) (+ x 0)))`. -/
def boundaryForm : Form :=
  let symbol (name : String) : Form := .atom (.symbol name) ⟨.symbol, name, 1⟩
  let number (n : Int64) : Form := .atom (.number n) ⟨.number, toString n, 1⟩
  let list (fs : List Form) : Form := .group .list fs ⟨.opening .list, "(", 1⟩
  let vector (fs : List Form) : Form := .group .vector fs ⟨.opening .vector, "[", 1⟩
  list [symbol "let", vector [symbol "x", number 1152921504606846975],
    list [symbol "do",
      .quote ⟨.quote, "'", 1⟩ (list [vector [number (-1152921504606846976)], number (-1)]),
      list [symbol "+", symbol "x", number 0]]]

/-- The largest and the smallest integer are accepted in a binding and in data, and come back. -/
theorem boundaryForm_kept : ∃ es c, (checkAll [boundaryForm]).outcome .start = (.ok es, c) ∧
    Expr.numbersAll es = [1152921504606846975, -1152921504606846976, -1, 0] ∧
    (∀ n ∈ Form.numbersAll [boundaryForm],
      Taggable n ∧ (integerWord n).toBitVec.sshiftRight 3 = n.toBitVec) ∧
    ((integerWord 1152921504606846976).toBitVec.sshiftRight 3 = 1152921504606846976#64 ↔
      Taggable 1152921504606846976) ∧ ¬Taggable 1152921504606846976 := by
  obtain ⟨es, c, h⟩ : ∃ es c, (checkAll [boundaryForm]).outcome .start = (.ok es, c) :=
    Pass.exists_outcome_ok (by decide +kernel)
  obtain ⟨hwords, heq, hback, -⟩ := integers_kept h
  obtain ⟨-, -, -, hshift, -⟩ := hwords 1152921504606846976
  exact ⟨es, c, h, heq, hback, hshift, by decide⟩

end TaggedLisp
