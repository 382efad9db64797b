import TaggedLisp.Machine.Translate
import TaggedLisp.Proofs.Machine.State

/-!
# Running code

Code is run by an instruction counter. A jump goes to the place of its label; a jump to a label that
the code does not have leaves the code, and so does a return. Calls are answered by an `Oracle` that
may do to registers and memory what it likes, as long as it keeps to what is promised of calls in
`Setting.Allows`. It may also leave a call without an answer, since nothing promises that a function
comes back or that there is always memory left. What a run does is recorded as a list of events: the
calls, with the states before and after, and the words written outside the stack.

`Carries` is the bridge to `Evaluation`: the machine does what an evaluation says, whatever the
answers are. It speaks of the code as a whole, since jumps do; `Executes` speaks of a piece of code
wherever it stands, and is what pieces of code are composed by.
-/

namespace TaggedLisp.Machine

/-! ## What is given -/

/-- What labels stand for, and how memory is shared. The stack lies from the index `floor` on. Some
words below it are kept by every call: those of objects that are in use. -/
structure Setting where
  address : Label → Word
  floor : Nat
  kept : Nat → Prop
  kept_lt_floor : ∀ a, kept a → a < floor

/-- The memory words that calls keep: those in use below the stack, and the stack. -/
def Setting.Safe (S : Setting) (σ : State) (a : Nat) : Prop := S.kept a ∨ σ.top ≤ a

/-- Whether a block of memory is free to be used. -/
structure Setting.Fresh (S : Setting) (block bytes : Nat) : Prop where
  aligned : block % 8 = 0
  below : block + bytes ≤ S.floor
  unused : ∀ a, block ≤ a → a < block + bytes → ¬ S.kept a

/-- What is promised of a call. -/
structure Setting.Allows (S : Setting) (target : Target) (before after : State) : Prop where
  rsp : after.reg .rsp = before.reg .rsp
  rbp : after.reg .rbp = before.reg .rbp
  mem : ∀ a, S.Safe before a → after.mem a = before.mem a
  fresh : target = .label (.routine .allocate) →
    S.Fresh (after.reg .rax).toNat (before.reg .rax).toNat

/-- What a run does that can be seen from outside. -/
inductive Event where
  | call (target : Target) (before after : State)
  | write (index : Nat) (word : Word)

/-- Answers to calls, which may depend on all that happened before. A call without an answer never
returns. -/
structure Oracle (S : Setting) where
  answer : List Event → Target → State → Option State
  allowed : ∀ past target σ τ, answer past target σ = some τ → S.Allows target σ τ

/-! ## Steps -/

/-- Why a run is over. -/
inductive Stop where
  /-- The end of the code is reached. -/
  | finished
  /-- A jump goes to a label that stands elsewhere. -/
  | left (target : Label)
  | returned
  /-- A call does not return. -/
  | waiting (target : Target)
  /-- A word is touched that overlaps others. -/
  | misaligned
  deriving DecidableEq, Repr

/-- What comes next. -/
inductive Step where
  | silent (pc : Nat) (after : State)
  | write (index : Nat) (word : Word) (after : State)
  | call (target : Target)
  | stop (reason : Stop)

/-- The place of a label. -/
def place (code : List Instr) (l : Label) : Option Nat := code.findIdx? (· == .label l)

/-- Whether what is called can be read. -/
def Target.isAligned : Target → Bool
  | label _ => true
  | through pointer => pointer.toNat % 8 == 0

/-- What comes next when an action is taken. -/
def step (S : Setting) (code : List Instr) (pc : Nat) (σ : State) : Step :=
  match code[pc]? with
  | none => .stop .finished
  | some i =>
    match i.action S.address σ with
    | .next τ => .silent (pc + 1) τ
    | .load a r τ =>
      if a % 8 = 0 then .silent (pc + 1) (τ.set r (σ.mem a)) else .stop .misaligned
    | .store a w τ =>
      if a % 8 = 0 then
        if S.floor ≤ a then .silent (pc + 1) (τ.store a w) else .write a w (τ.store a w)
      else .stop .misaligned
    | .jump l =>
      match place code l with
      | some pc => .silent pc σ
      | none => .stop (.left l)
    | .call t => if t.isAligned then .call t else .stop .misaligned
    | .ret => .stop .returned

/-- The code runs from the place `pc` and the state `σ`, after what has happened in the `past`,
until it stops for a `reason` in the state `τ`. -/
inductive Runs {S : Setting} (O : Oracle S) (code : List Instr) :
    (past : List Event) → (pc : Nat) → (σ : State) → List Event → (reason : Stop) → (τ : State) →
      Prop where
  | stop {past pc σ s} (h : step S code pc σ = .stop s) : Runs O code past pc σ [] s σ
  | silent {past pc σ pc' σ' es s τ} (h : step S code pc σ = .silent pc' σ')
      (rest : Runs O code past pc' σ' es s τ) : Runs O code past pc σ es s τ
  | write {past pc σ a w σ' es s τ} (h : step S code pc σ = .write a w σ')
      (rest : Runs O code (past ++ [.write a w]) (pc + 1) σ' es s τ) :
      Runs O code past pc σ (.write a w :: es) s τ
  | call {past pc σ t σ' es s τ} (h : step S code pc σ = .call t)
      (answer : O.answer past t σ = some σ')
      (rest : Runs O code (past ++ [.call t σ σ']) (pc + 1) σ' es s τ) :
      Runs O code past pc σ (.call t σ σ' :: es) s τ
  | wait {past pc σ t} (h : step S code pc σ = .call t) (answer : O.answer past t σ = none) :
      Runs O code past pc σ [] (.waiting t) σ

/-- There is at most one run. -/
theorem Runs.unique {S : Setting} {O : Oracle S} {code : List Instr} {past : List Event} {pc : Nat}
    {σ τ τ' : State} {es es' : List Event} {s s' : Stop} (h : Runs O code past pc σ es s τ)
    (h' : Runs O code past pc σ es' s' τ') : es = es' ∧ s = s' ∧ τ = τ' := by
  induction h generalizing es' with
  | stop hs =>
    cases h' <;> simp_all
  | silent hs _ ih =>
    cases h' with
    | silent hs' rest =>
      obtain ⟨rfl, rfl⟩ := by simpa using hs.symm.trans hs'
      exact ih rest
    | _ hs' => simp [hs] at hs'
  | write hs _ ih =>
    cases h' with
    | write hs' rest =>
      obtain ⟨rfl, rfl, rfl⟩ := by simpa using hs.symm.trans hs'
      obtain ⟨rfl, hτ⟩ := ih rest
      exact ⟨rfl, hτ⟩
    | _ hs' => simp [hs] at hs'
  | call hs ha _ ih =>
    cases h' with
    | call hs' ha' rest =>
      obtain rfl := by simpa using hs.symm.trans hs'
      obtain rfl := by simpa using ha.symm.trans ha'
      obtain ⟨rfl, hτ⟩ := ih rest
      exact ⟨rfl, hτ⟩
    | wait hs' ha' =>
      obtain rfl := by simpa using hs.symm.trans hs'
      simp [ha] at ha'
    | _ hs' => simp [hs] at hs'
  | wait hs ha =>
    cases h' with
    | call hs' ha' _ =>
      obtain rfl := by simpa using hs.symm.trans hs'
      simp [ha] at ha'
    | wait hs' _ =>
      obtain rfl := by simpa using hs.symm.trans hs'
      exact ⟨rfl, rfl, rfl⟩
    | _ hs' => simp [hs] at hs'

/-- Nothing but a call makes a run wait. -/
theorem step_ne_waiting {code : List Instr} {pc : Nat} {target : Target} :
    step S code pc σ ≠ .stop (.waiting target) := by
  rw [step]
  split
  · simp
  · split <;> grind

/-- A run waits because there is no answer. -/
theorem Runs.answer_of_waiting {code : List Instr} {past : List Event} {pc : Nat}
    {target : Target} (h : Runs O code past pc σ [] (.waiting target) τ) :
    O.answer past target τ = none := by
  generalize hes : ([] : List Event) = es at h
  generalize hs : Stop.waiting target = s at h
  induction h with
  | stop h => exact absurd (hs ▸ h) step_ne_waiting
  | silent _ _ ih => exact ih hes hs
  | write => cases hes
  | call => cases hes
  | wait _ answer =>
    cases hs
    exact answer

/-- The first call of a run is answered at once. -/
theorem Runs.answer_of_call {code : List Instr} {past es : List Event} {pc : Nat}
    {target : Target} {σ₁ σ₂ : State} {s : Stop}
    (h : Runs O code past pc σ (.call target σ₁ σ₂ :: es) s τ) :
    O.answer past target σ₁ = some σ₂ := by
  generalize hes : Event.call target σ₁ σ₂ :: es = es' at h
  induction h with
  | stop => cases hes
  | silent _ _ ih => exact ih hes
  | write => cases hes
  | call _ answer =>
    cases hes
    exact answer
  | wait => cases hes

/-- The code runs from one place and state to another, after what has happened in the `past`. -/
inductive Comes {S : Setting} (O : Oracle S) (code : List Instr) :
    (past : List Event) → (pc : Nat) → (σ : State) → List Event → (pc' : Nat) → (τ : State) →
      Prop where
  | here {past pc σ} : Comes O code past pc σ [] pc σ
  | silent {past pc σ pc' σ' es pc'' τ} (h : step S code pc σ = .silent pc' σ')
      (rest : Comes O code past pc' σ' es pc'' τ) : Comes O code past pc σ es pc'' τ
  | write {past pc σ a w σ' es pc'' τ} (h : step S code pc σ = .write a w σ')
      (rest : Comes O code (past ++ [.write a w]) (pc + 1) σ' es pc'' τ) :
      Comes O code past pc σ (.write a w :: es) pc'' τ
  | call {past pc σ t σ' es pc'' τ} (h : step S code pc σ = .call t)
      (answer : O.answer past t σ = some σ')
      (rest : Comes O code (past ++ [.call t σ σ']) (pc + 1) σ' es pc'' τ) :
      Comes O code past pc σ (.call t σ σ' :: es) pc'' τ

/-- Instructions that do not jump lead to the next place. -/
theorem step_silent {S : Setting} {code : List Instr} {pc pc' : Nat} {σ τ : State}
    (h : step S code pc σ = .silent pc' τ)
    (hcode : ∀ i, code[pc]? = some i → ∀ l, i.action S.address σ ≠ .jump l) : pc' = pc + 1 := by
  rw [step] at h
  cases hi : code[pc]? with
  | none => simp [hi] at h
  | some i =>
    have hjump := hcode i hi
    rw [hi] at h
    dsimp only at h
    generalize i.action S.address σ = a at h hjump
    cases a with
    | jump l => exact absurd rfl (hjump l)
    | _ => grind

/-- Where nothing jumps, a run does not come back. -/
theorem Comes.forward {S : Setting} {O : Oracle S} {code : List Instr} {past es : List Event}
    {pc pc' : Nat} {σ τ : State} (h : Comes O code past pc σ es pc' τ)
    (hcode : ∀ j i, pc ≤ j → code[j]? = some i → ∀ σ l, i.action S.address σ ≠ .jump l) :
    pc ≤ pc' ∧ (pc = pc' → es = [] ∧ σ = τ) := by
  have hnext : ∀ {pc pc' : Nat} {p : Prop}, pc + 1 ≤ pc' → pc ≤ pc' ∧ (pc = pc' → p) :=
    fun hle ↦ ⟨Nat.le_of_succ_le hle, fun heq ↦ absurd heq (Nat.ne_of_lt hle)⟩
  induction h with
  | here => exact ⟨Nat.le_refl _, fun _ ↦ ⟨rfl, rfl⟩⟩
  | silent h _ ih =>
    obtain rfl := step_silent h fun i hi ↦ hcode _ i (Nat.le_refl _) hi _
    exact hnext (ih fun j i hj ↦ hcode j i (Nat.le_of_succ_le hj)).1
  | write _ _ ih | call _ _ _ ih =>
    exact hnext (ih fun j i hj ↦ hcode j i (Nat.le_of_succ_le hj)).1

/-! ## Events and evaluations -/

/-- Where a function that is called finds its arguments: in registers and then on the stack. -/
def argument (i : Nat) (σ : State) : Word :=
  match argRegisters[i]? with
  | some r => σ.reg r
  | none => σ.mem (σ.top + 8 * (i - argRegisters.length))

/-- What a call instruction hands over. -/
def Hands : Call → Target → State → Prop
  | .closure f args, t, σ =>
    t = .through f.untagged ∧ σ.reg .rdi = f ∧
      ∀ i w, args[i]? = some w → argument i σ = w
  | .sequence shape elems, t, σ =>
    t = .label (.routine shape.routine) ∧ σ.reg .rdi = BitVec.ofNat 64 elems.length ∧
      ∀ i w, elems[i]? = some w → σ.mem ((σ.reg .rsi).toNat + 8 * i) = w
  | .allocate bytes, t, σ =>
    t = .label (.routine .allocate) ∧ σ.reg .rax = BitVec.ofNat 64 bytes

/-- How far an evaluation comes. -/
inductive Outcome (α : Type) where
  | result (a : α)
  /-- It stops without a result. -/
  | fault
  /-- It waits for the answer to a call. -/
  | waits (call : Call)

/-- The events are those of the evaluation, which is answered as recorded and comes to an outcome.
-/
inductive Follows {α : Type} : Evaluation α → List Event → Outcome α → Prop where
  | done {a} : Follows (.done a) [] (.result a)
  | stop : Follows .stop [] .fault
  | wait {c k} : Follows (.ask (.call c) k) [] (.waits c)
  | write {a w k es r} (rest : Follows (k ()) es r) :
      Follows (.ask (.write a w) k) (.write a w :: es) r
  | call {c k t σ σ' es r} (h : Hands c t σ) (rest : Follows (k (σ'.reg .rax)) es r) :
      Follows (.ask (.call c) k) (.call t σ σ' :: es) r

/-- The way in which a run is over fits the outcome of the evaluation. Where there is a result, `Q`
holds of it and of the state; a fault leads to the error routine, and the word that was to be called
is no closure. -/
def Outcome.Ends {α : Type} (Q : α → State → Prop) : Outcome α → Stop → State → Prop
  | result a, s, τ => s = .finished ∧ Q a τ
  | fault, s, τ => s = .left (.routine .error) ∧ (τ.reg .rax).hasTag .closure = false
  | waits c, s, τ => ∃ t, s = .waiting t ∧ Hands c t τ

/-- Whatever calls are answered, the code does what the evaluation says, at places before `limit`.
Where this has a result, `Q` holds of the result, the place that is reached and the state. -/
inductive Carries {α : Type} (S : Setting) (code : List Instr) (limit : Nat)
    (Q : α → Nat → State → Prop) : Nat → State → Evaluation α → Prop where
  | done {pc σ a} (h : Q a pc σ) : Carries S code limit Q pc σ (.done a)
  | silent {pc σ pc' σ' d} (hlt : pc < limit) (h : step S code pc σ = .silent pc' σ')
      (rest : Carries S code limit Q pc' σ' d) : Carries S code limit Q pc σ d
  | write {pc σ a w σ' k} (hlt : pc < limit) (h : step S code pc σ = .write a w σ')
      (rest : Carries S code limit Q (pc + 1) σ' (k ())) :
      Carries S code limit Q pc σ (.ask (.write a w) k)
  | call {pc σ c t k} (hlt : pc < limit) (h : step S code pc σ = .call t) (hands : Hands c t σ)
      (rest : ∀ σ', S.Allows t σ σ' → Carries S code limit Q (pc + 1) σ' (k (σ'.reg .rax))) :
      Carries S code limit Q pc σ (.ask (.call c) k)
  | fault {pc σ} (hlt : pc < limit) (h : step S code pc σ = .stop (.left (.routine .error)))
      (tag : (σ.reg .rax).hasTag .closure = false) : Carries S code limit Q pc σ .stop

namespace Carries

variable {S : Setting} {code : List Instr} {limit limit' : Nat} {α β : Type}
  {Q : α → Nat → State → Prop} {pc : Nat} {σ : State} {d : Evaluation α}

theorem bind {R : β → Nat → State → Prop} {f : α → Evaluation β}
    (h : Carries S code limit Q pc σ d) (hle : limit ≤ limit')
    (hf : ∀ a pc σ, Q a pc σ → Carries S code limit' R pc σ (f a)) :
    Carries S code limit' R pc σ (d >>= f) := by
  induction h with
  | done h => exact hf _ _ _ h
  | silent hlt h _ ih => exact .silent (Nat.lt_of_lt_of_le hlt hle) h ih
  | write hlt h _ ih => exact .write (Nat.lt_of_lt_of_le hlt hle) h ih
  | call hlt h hands _ ih => exact .call (Nat.lt_of_lt_of_le hlt hle) h hands ih
  | fault hlt h tag => exact .fault (Nat.lt_of_lt_of_le hlt hle) h tag

/-- The code runs as far as the evaluation comes. -/
theorem runs {P : α → State → Prop} (O : Oracle S) (h : Carries S code limit Q pc σ d)
    (hQ : ∀ a pc σ, Q a pc σ → code.length ≤ pc ∧ P a σ) (past : List Event) :
    ∃ es s τ r, Runs O code past pc σ es s τ ∧ Follows d es r ∧ r.Ends P s τ := by
  induction h generalizing past with
  | @done pc σ a h =>
    have hs : step S code pc σ = .stop .finished := by
      rw [step, List.getElem?_eq_none (hQ _ _ _ h).1]
    exact ⟨[], _, σ, _, .stop hs, .done, rfl, (hQ _ _ _ h).2⟩
  | silent _ h _ ih =>
    obtain ⟨es, s, τ, r, hruns, hd⟩ := ih past
    exact ⟨es, s, τ, r, .silent h hruns, hd⟩
  | @write _ _ a w _ _ _ h _ ih =>
    obtain ⟨es, s, τ, r, hruns, hd, hr⟩ := ih (past ++ [.write a w])
    exact ⟨_, s, τ, r, .write h hruns, .write hd, hr⟩
  | @call pc σ c t k _ h hands _ ih =>
    cases ha : O.answer past t σ with
    | none => exact ⟨[], _, σ, _, .wait h ha, .wait, t, rfl, hands⟩
    | some υ =>
      obtain ⟨es, s, τ, r, hruns, hd, hr⟩ :=
        ih _ (O.allowed past t σ υ ha) (past ++ [.call t σ υ])
      exact ⟨_, s, τ, r, .call h ha hruns, .call hands hd, hr⟩
  | @fault pc σ _ h tag => exact ⟨[], _, σ, _, .stop h, .stop, rfl, tag⟩

/-- A run that comes to a place behind `limit` has come to the result of the evaluation, if it does
not come there a second time. -/
theorem comes {O : Oracle S} {past : List Event} {es : List Event} {pc' : Nat} {τ : State}
    (h : Carries S code limit Q pc σ d) (hcomes : Comes O code past pc σ es pc' τ)
    (hle : limit ≤ pc')
    (hQ : ∀ a pc σ past es, Q a pc σ → Comes O code past pc σ es pc' τ →
      es = [] ∧ pc = pc' ∧ σ = τ) :
    ∃ a, Follows d es (.result a) ∧ Q a pc' τ := by
  induction h generalizing past es with
  | done h =>
    obtain ⟨rfl, rfl, rfl⟩ := hQ _ _ _ _ _ h hcomes
    exact ⟨_, .done, h⟩
  | silent hlt h _ ih =>
    cases hcomes with
    | here => exact absurd hlt (Nat.not_lt.mpr hle)
    | silent h' rest =>
      obtain ⟨rfl, rfl⟩ := by simpa using h.symm.trans h'
      exact ih rest
    | _ h' => simp [h] at h'
  | write hlt h _ ih =>
    cases hcomes with
    | here => exact absurd hlt (Nat.not_lt.mpr hle)
    | write h' rest =>
      obtain ⟨rfl, rfl, rfl⟩ := by simpa using h.symm.trans h'
      obtain ⟨a, hd, ha⟩ := ih rest
      exact ⟨a, .write hd, ha⟩
    | _ h' => simp [h] at h'
  | call hlt h hands _ ih =>
    cases hcomes with
    | here => exact absurd hlt (Nat.not_lt.mpr hle)
    | call h' answer rest =>
      obtain rfl := by simpa using h.symm.trans h'
      obtain ⟨a, hd, ha⟩ := ih _ (O.allowed _ _ _ _ answer) rest
      exact ⟨a, .call hands hd, ha⟩
    | _ h' => simp [h] at h'
  | fault hlt h =>
    cases hcomes with
    | here => exact absurd hlt (Nat.not_lt.mpr hle)
    | _ h' => simp [h] at h'

end Carries

/-! ## Pieces of code -/

/-- The labels of a piece of code. -/
def labels (code : List Instr) : List Label :=
  code.filterMap fun
    | .label l => some l
    | _ => none

@[simp] theorem labels_append (c c' : List Instr) : labels (c ++ c') = labels c ++ labels c' :=
  List.filterMap_append

theorem mem_labels {c : List Instr} {l : Label} : l ∈ labels c ↔ .label l ∈ c := by
  simp only [labels, List.mem_filterMap]
  constructor
  · rintro ⟨i, hi, h⟩
    cases i <;> simp_all
  · exact fun h ↦ ⟨_, h, rfl⟩

/-- Code in which every label stands once and none is that of the error routine. -/
structure Linkable (code : List Instr) : Prop where
  nodup : (labels code).Nodup
  error : Label.routine .error ∉ labels code

theorem Linkable.place_eq {code : List Instr} {l : Label} (h : Linkable code)
    (before after : List Instr) (hcode : code = before ++ .label l :: after) :
    place code l = some before.length := by
  have hnot : Instr.label l ∉ before := by
    intro hl
    have hnodup := h.nodup
    rw [hcode, labels_append, List.nodup_append] at hnodup
    exact hnodup.2.2 l (mem_labels.mpr hl) l (mem_labels.mpr List.mem_cons_self) rfl
  rw [place, hcode, List.findIdx?_append, List.findIdx?_eq_none_iff.mpr, List.findIdx?_cons]
  · simp
  · intro i hi
    rw [beq_eq_false_iff_ne]
    rintro rfl
    exact hnot hi

theorem Linkable.place_error {code : List Instr} (h : Linkable code) :
    place code (.routine .error) = none := by
  rw [place, List.findIdx?_eq_none_iff]
  intro i hi
  rw [beq_eq_false_iff_ne]
  rintro rfl
  exact h.error (mem_labels.mpr hi)

/-- A piece of code does what the evaluation says, wherever it stands. Where this has a result, what
stands behind the piece is reached and `Q` holds. -/
def Executes {α : Type} (S : Setting) (c : List Instr) (σ : State) (d : Evaluation α)
    (Q : α → State → Prop) : Prop :=
  ∀ code before after, Linkable code → code = before ++ c ++ after →
    Carries S code (before.length + c.length)
      (fun a pc τ ↦ pc = before.length + c.length ∧ Q a τ) before.length σ d

namespace Executes

variable {S : Setting} {α β : Type} {c c' : List Instr} {i : Instr} {σ τ : State}
  {d : Evaluation α} {Q : α → State → Prop}

theorem nil {a : α} (h : Q a σ) : Executes S [] σ (.done a) Q :=
  fun _ _ _ _ _ ↦ .done ⟨rfl, h⟩

theorem bind {R : β → State → Prop} {f : α → Evaluation β} (h : Executes S c σ d Q)
    (hf : ∀ a τ, Q a τ → Executes S c' τ (f a) R) : Executes S (c ++ c') σ (d >>= f) R := by
  intro code before after hcode hc
  refine (h code before (c' ++ after) hcode (by simp [hc])).bind (by simp) ?_
  rintro a pc τ ⟨rfl, hQ⟩
  have := hf a τ hQ code (before ++ c) after hcode (by simp [hc])
  simpa [Nat.add_assoc] using this

theorem mono {R : α → State → Prop} (h : Executes S c σ d Q) (hR : ∀ a τ, Q a τ → R a τ) :
    Executes S c σ d R := by
  have hnil : ∀ a τ, Q a τ → Executes S [] τ (Dialogue.done a) R := fun a τ hQ ↦ nil (hR a τ hQ)
  have := h.bind hnil
  rwa [Dialogue.bind_done, List.append_nil] at this

private theorem front_lt {before : List Instr} :
    before.length < before.length + (i :: c).length := by
  simp

/-- The instruction at the front of a piece leads to the rest of it. -/
private theorem of_step
    (hstep : ∀ code before after, Linkable code → code = before ++ i :: c ++ after →
      step S code before.length σ = .silent (before.length + 1) τ)
    (rest : Executes S c τ d Q) : Executes S (i :: c) σ d Q := by
  intro code before after hcode hc
  refine .silent front_lt (hstep code before after hcode hc) ?_
  have := rest code (before ++ [i]) after hcode (by simp [hc])
  simpa [Nat.add_assoc, Nat.add_comm 1] using this

private theorem getElem?_length {code before after : List Instr}
    (hc : code = before ++ i :: c ++ after) : code[before.length]? = some i := by
  simp [hc]

theorem next (h : i.action S.address σ = .next τ) (rest : Executes S c τ d Q) :
    Executes S (i :: c) σ d Q :=
  of_step (fun code before after _ hc ↦ by rw [step, getElem?_length hc]; simp [h]) rest

theorem load {a : Nat} {r : Reg} (h : i.action S.address σ = .load a r τ) (ha : a % 8 = 0)
    (rest : Executes S c (τ.set r (σ.mem a)) d Q) : Executes S (i :: c) σ d Q :=
  of_step (fun code before after _ hc ↦ by rw [step, getElem?_length hc]; simp [h, ha]) rest

theorem store {a : Nat} {w : Word} (h : i.action S.address σ = .store a w τ) (ha : a % 8 = 0)
    (hfloor : S.floor ≤ a) (rest : Executes S c (τ.store a w) d Q) : Executes S (i :: c) σ d Q :=
  of_step (fun code before after _ hc ↦ by rw [step, getElem?_length hc]; simp [h, ha, hfloor]) rest

theorem write {a : Nat} {w : Word} {k : Unit → Evaluation α}
    (h : i.action S.address σ = .store a w τ) (ha : a % 8 = 0) (hfloor : a < S.floor)
    (rest : Executes S c (τ.store a w) (k ()) Q) :
    Executes S (i :: c) σ (.ask (.write a w) k) Q := by
  intro code before after hcode hc
  have hstep : step S code before.length σ = .write a w (τ.store a w) := by
    rw [step, getElem?_length hc]
    simp [h, ha, Nat.not_le.mpr hfloor]
  refine .write front_lt hstep ?_
  have := rest code (before ++ [i]) after hcode (by simp [hc])
  simpa [Nat.add_assoc, Nat.add_comm 1] using this

theorem call {q : Call} {t : Target} {k : Word → Evaluation α}
    (h : i.action S.address σ = .call t) (ht : t.isAligned = true) (hands : Hands q t σ)
    (rest : ∀ τ, S.Allows t σ τ → Executes S c τ (k (τ.reg .rax)) Q) :
    Executes S (i :: c) σ (.ask (.call q) k) Q := by
  intro code before after hcode hc
  refine .call front_lt ?_ hands fun τ hτ ↦ ?_
  · rw [step, getElem?_length hc]
    simp [h, ht]
  · have := rest τ hτ code (before ++ [i]) after hcode (by simp [hc])
    simpa [Nat.add_assoc, Nat.add_comm 1] using this

/-- A jump over a piece of code, which is not run. -/
theorem skip {l : Label} {skipped : List Instr} (h : i.action S.address σ = .jump l)
    (rest : Executes S c σ d Q) : Executes S (i :: skipped ++ .label l :: c) σ d Q := by
  intro code before after hcode hc
  have hplace : place code l = some (before ++ i :: skipped).length :=
    hcode.place_eq _ (c ++ after) (by simp [hc])
  have hlabel : Executes S (.label l :: c) σ d Q := next rfl rest
  have hstep : step S code before.length σ = .silent (before ++ i :: skipped).length σ := by
    rw [step, getElem?_length (by simpa using hc)]
    simp only [h, hplace]
  refine .silent (by simp) hstep ?_
  have := hlabel code (before ++ i :: skipped) after hcode (by simp [hc])
  simpa [Nat.add_assoc, Nat.add_comm, Nat.add_left_comm] using this

/-- A jump to the error routine. -/
theorem fault (h : i.action S.address σ = .jump (.routine .error))
    (tag : (σ.reg .rax).hasTag .closure = false) : Executes S (i :: c) σ .stop Q := by
  intro code before after hcode hc
  refine .fault front_lt ?_ tag
  rw [step, getElem?_length hc]
  simp [h, hcode.place_error]

/-- Running a piece of code on its own. -/
theorem runs (O : Oracle S) (h : Executes S c σ d Q) (hc : Linkable c) :
    ∃ es s τ r, Runs O c [] 0 σ es s τ ∧ Follows d es r ∧ r.Ends Q s τ :=
  (h c [] [] hc (by simp)).runs O (fun _ _ _ h ↦ ⟨by simp [h.1], h.2⟩) []

/-- A run that comes to the end of a piece has come to the result of the evaluation, if nothing
jumps behind the piece. -/
theorem comes {O : Oracle S} {rest : List Instr} {es : List Event} {υ : State}
    (h : Executes S c σ d Q) (hc : Linkable (c ++ rest))
    (hrest : ∀ i ∈ rest, ∀ σ l, i.action S.address σ ≠ .jump l)
    (hcomes : Comes O (c ++ rest) [] 0 σ es c.length υ) :
    ∃ a, Follows d es (.result a) ∧ Q a υ := by
  have hback : ∀ past es τ, Comes O (c ++ rest) past c.length τ es c.length υ →
      es = [] ∧ τ = υ := by
    intro past es τ hback
    refine (hback.forward fun j i hj hi ↦ ?_).2 rfl
    rw [List.getElem?_append_right hj] at hi
    exact hrest i (List.mem_of_getElem? hi)
  obtain ⟨a, hd, -, ha⟩ := (h (c ++ rest) [] rest hc rfl).comes hcomes (by simp) fun a pc τ past es
      ⟨hpc, _⟩ hcomes ↦ by
    rw [List.length_nil, Nat.zero_add] at hpc
    subst hpc
    obtain ⟨hes, hτ⟩ := hback past es τ hcomes
    exact ⟨hes, rfl, hτ⟩
  exact ⟨a, hd, ha⟩

end Executes

end TaggedLisp.Machine
