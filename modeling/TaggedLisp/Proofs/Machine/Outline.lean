import TaggedLisp.Proofs.Ir.Outline
import TaggedLisp.Proofs.Machine.Correctness
import TaggedLisp.Proofs.Machine.Frames

/-!
# The branches and calls of machine code

They are listed from the text alone. A routine is called with the number of words that is in `rdi`.
A closure is called with the words that were popped into registers since the callee was put into
`rdi`, and with those that are in the room that is given up right behind the call. To tell that room
from the variables of a `let` that ends there, the words of the frame are followed along the text.

Translation writes the branches and calls of the expression, like the other back end:
`branches_and_calls_agree`.
-/

namespace TaggedLisp.Machine

open Translate

/-! ## Listing -/

/-- What was met on the way to a place in the text. -/
structure Scan where
  frame : Cells
  /-- The number that was last put into `rdi`. -/
  count : Nat
  /-- How many words were popped since the callee of a call was put into `rdi`. -/
  popped : Nat

/-- The words of room that are given up by an instruction. -/
def roomGivenUp (F : Cells) : Option Instr → Nat
  | some (.add .rsp n) =>
    let top := F.drop (F.length - n.toNat / 8)
    if top.all (· = .room) then top.length else 0
  | _ => 0

namespace Scan

/-- Past an instruction. -/
def past (s : Scan) (i : Instr) : Scan where
  frame := i.words s.frame
  count :=
    match i with
    | .mov .rdi (.const n) => n.toNat
    | _ => s.count
  popped :=
    match i with
    | .mov .rdi (.reg .rax) => 0
    | .pop _ => s.popped + 1
    | _ => s.popped

/-- The branch or call that an instruction is. Memory is allocated in the code of a function, and
not called for in the expression. -/
def point? (s : Scan) (next : Option Instr) : Instr → Option Point
  | .je _ => some .branch
  | .call l => if l = .routine .allocate then none else some (.routine l.render s.count)
  | .callThrough _ => some (.apply (s.popped + roomGivenUp s.frame next))
  | _ => none

/-- The branches and calls of code in the order of the text. -/
def outline (s : Scan) : List Instr → List Point
  | [] => []
  | i :: c => (s.point? c.head? i).toList ++ (s.past i).outline c

end Scan

/-- The branches and calls of code that starts with an empty frame. -/
def codeOutline (c : List Instr) : List Point := Scan.outline ⟨[], 0, 0⟩ c

/-! ## Code without branches and calls -/

/-- Whether the instruction is no branch and no call. -/
def Instr.isSilent : Instr → Bool
  | .je _ | .callThrough _ => false
  | .call l => l = .routine .allocate
  | _ => true

/-- Whether moreover the frame is the same behind it. -/
def Instr.isQuiet : Instr → Bool
  | .je _ | .callThrough _ | .push _ | .pop _ | .add _ _ | .sub _ _ => false
  | .call l => l = .routine .allocate
  | _ => true

variable {F F' F'' G : Cells} {c c' : List Instr} {ps ps' : List Point}

theorem Scan.outline_silent (h : ∀ i ∈ c, i.isSilent = true) (s : Scan) (rest : List Instr) :
    s.outline (c ++ rest) = (c.foldl Scan.past s).outline rest := by
  induction c generalizing s with
  | nil => rfl
  | cons i c ih =>
    obtain ⟨hi, hc⟩ := List.forall_mem_cons.mp h
    have hpoint : s.point? (c ++ rest).head? i = none := by
      cases i with
      | je | callThrough => cases hi
      | call l => exact if_pos (of_decide_eq_true hi)
      | _ => rfl
    rw [List.cons_append, Scan.outline, hpoint, ih hc]
    rfl

theorem Scan.frame_foldl (c : List Instr) (s : Scan) :
    (c.foldl Scan.past s).frame = c.foldl Instr.words s.frame := by
  induction c generalizing s with
  | nil => rfl
  | cons i c ih => exact ih _

theorem Scan.exists_outline_silent (h : ∀ i ∈ c, i.isSilent = true) (n k : Nat)
    (rest : List Instr) : ∃ n' k', Scan.outline ⟨F, n, k⟩ (c ++ rest)
      = Scan.outline ⟨c.foldl Instr.words F, n', k'⟩ rest := by
  refine ⟨(c.foldl Scan.past ⟨F, n, k⟩).count, (c.foldl Scan.past ⟨F, n, k⟩).popped, ?_⟩
  rw [Scan.outline_silent h, ← Scan.frame_foldl c ⟨F, n, k⟩]

/-! ## Frames along straight code -/

theorem append_replicate_succ (F : Cells) (n : Nat) (x : Cell) :
    F ++ List.replicate (n + 1) x = F ++ [x] ++ List.replicate n x := by
  rw [List.replicate_succ, List.append_assoc]
  rfl

theorem words_pushes (rs : List Reg) (F : Cells) :
    (rs.map Instr.push).foldl Instr.words F = F ++ List.replicate rs.length .held := by
  induction rs generalizing F with
  | nil => simp
  | cons r rs ih =>
    rw [List.map_cons, List.foldl_cons, ih, Instr.words, List.append_assoc, List.length_cons,
      List.replicate_succ]
    rfl

theorem past_pops (rs : List Reg) (s : Scan) :
    (rs.map Instr.pop).foldl Scan.past s
      = ⟨s.frame.take (s.frame.length - rs.length), s.count, s.popped + rs.length⟩ := by
  induction rs generalizing s with
  | nil => simp
  | cons r rs ih =>
    rw [List.map_cons, List.foldl_cons, ih]
    simp only [Scan.past, Instr.words, List.dropLast_eq_take, List.take_take, List.length_take,
      List.length_cons, Scan.mk.injEq, true_and]
    constructor
    · congr 1
      omega
    · omega

theorem words_pops {rs : List Reg} (hG : G.length = rs.length) :
    (rs.map Instr.pop).foldl Instr.words (F ++ G) = F := by
  have hframe := Scan.frame_foldl (rs.map .pop) ⟨F ++ G, 0, 0⟩
  rw [past_pops] at hframe
  simpa [hG] using hframe.symm

theorem words_reserveCode (n : Nat) (F : Cells) :
    (reserveCode n).foldl Instr.words F = F ++ List.replicate n .room := by
  rw [reserveCode]
  split
  · next h => simp [h]
  · simp [Instr.words, show (8 * n : Int).toNat / 8 = n by omega]

theorem words_releaseCode {n : Nat} (hG : G.length = n) :
    (releaseCode n).foldl Instr.words (F ++ G) = F := by
  rw [releaseCode]
  split
  · next h => simp [List.eq_nil_of_length_eq_zero (hG.trans h)]
  · simp [Instr.words, show (8 * n : Int).toNat / 8 = n by omega, hG]

theorem silent_pushes (rs : List Reg) : ∀ i ∈ rs.map Instr.push, i.isSilent = true :=
  List.forall_mem_map.mpr fun _ _ ↦ rfl

theorem silent_pops (rs : List Reg) : ∀ i ∈ rs.map Instr.pop, i.isSilent = true :=
  List.forall_mem_map.mpr fun _ _ ↦ rfl

theorem silent_releaseCode (n : Nat) : ∀ i ∈ releaseCode n, i.isSilent = true := by
  rw [releaseCode]
  split
  · exact List.forall_mem_nil _
  · exact List.forall_mem_singleton.mpr rfl

theorem roomGivenUp_add {n : Nat} (hG : G.length = n) :
    roomGivenUp (F ++ G) (some (.add .rsp (8 * n))) = if G.all (· = .room) then n else 0 := by
  have hdrop : (F ++ G).drop ((F ++ G).length - (8 * n : Int).toNat / 8) = G := by
    rw [show (8 * n : Int).toNat / 8 = n by omega, List.length_append, hG, Nat.add_sub_cancel,
      List.drop_left]
  simp only [roomGivenUp, hdrop, hG]

/-! ## Pieces of code -/

/-- From the frame `F` on, the code has the branches and calls `ps`, and comes to the frame `F'`.
What was met before does not matter, nor what comes behind, as long as that does not give up room as
if it belonged to a call. -/
structure Outlined (F : Cells) (c : List Instr) (ps : List Point) (F' : Cells) : Prop where
  first : ∀ rest : List Instr, roomGivenUp F' rest.head? = 0 → roomGivenUp F (c ++ rest).head? = 0
  outline : ∀ n k rest, roomGivenUp F' rest.head? = 0 →
    ∃ n' k', Scan.outline ⟨F, n, k⟩ (c ++ rest) = ps ++ Scan.outline ⟨F', n', k'⟩ rest

namespace Outlined

theorem nil : Outlined F [] [] F := ⟨fun _ h ↦ h, fun n k _ _ ↦ ⟨n, k, rfl⟩⟩

theorem append (h : Outlined F c ps F') (h' : Outlined F' c' ps' F'') :
    Outlined F (c ++ c') (ps ++ ps') F'' where
  first rest hrest := by
    rw [List.append_assoc]
    exact h.first _ (h'.first rest hrest)
  outline n k rest hrest := by
    obtain ⟨n₁, k₁, h₁⟩ := h.outline n k (c' ++ rest) (h'.first rest hrest)
    obtain ⟨n₂, k₂, h₂⟩ := h'.outline n₁ k₁ rest hrest
    exact ⟨n₂, k₂, by rw [List.append_assoc, h₁, h₂, List.append_assoc]⟩

/-- Code without branches and calls. -/
theorem silent (hc : ∀ i ∈ c, i.isSilent = true) (hF : c.foldl Instr.words F = F')
    (hfirst : ∀ rest : List Instr, roomGivenUp F' rest.head? = 0 →
      roomGivenUp F (c ++ rest).head? = 0) : Outlined F c [] F' where
  first := hfirst
  outline n k rest _ := hF ▸ Scan.exists_outline_silent hc n k rest

/-- Code that leaves the frame alone as well. -/
theorem quiet (hc : c.all Instr.isQuiet = true) : Outlined F c [] F := by
  induction c with
  | nil => exact .nil
  | cons i c ih =>
    obtain ⟨hi, hc⟩ := Bool.and_eq_true_iff.mp (List.all_cons ▸ hc)
    have hfirst : Outlined F [i] [] F := by
      cases i with
      | je | callThrough | push | pop | add | sub => cases hi
      | call l => exact silent (List.forall_mem_singleton.mpr hi) rfl fun _ _ ↦ rfl
      | _ => exact silent (List.forall_mem_singleton.mpr rfl) rfl fun _ _ ↦ rfl
    exact hfirst.append (ih hc)

theorem pushes (rs : List Reg) :
    Outlined F (rs.map .push) [] (F ++ List.replicate rs.length .held) := by
  refine silent (silent_pushes rs) (words_pushes rs F) fun rest hrest ↦ ?_
  cases rs with
  | nil => simpa using hrest
  | cons r rs => rfl

theorem pops {rs : List Reg} (hG : G.length = rs.length) :
    Outlined (F ++ G) (rs.map .pop) [] F := by
  refine silent (silent_pops rs) (words_pops hG) fun rest hrest ↦ ?_
  cases rs with
  | nil => simpa [List.eq_nil_of_length_eq_zero hG] using hrest
  | cons r rs => rfl

theorem reserve (n : Nat) : Outlined F (reserveCode n) [] (F ++ List.replicate n .room) := by
  cases n with
  | zero =>
    rw [List.replicate_zero, List.append_nil]
    exact .nil
  | succ n =>
    have hwords := words_reserveCode (n + 1) F
    exact silent (List.forall_mem_singleton.mpr rfl) hwords fun _ _ ↦ rfl

/-- The words that are given up are not room, so that they are not taken for words of a call. -/
theorem release (n : Nat) : Outlined (F ++ List.replicate n .held) (releaseCode n) [] F := by
  have hwords := words_releaseCode (F := F) (List.length_replicate (a := Cell.held) (n := n))
  refine silent (silent_releaseCode n) hwords fun rest hrest ↦ ?_
  cases n with
  | zero =>
    rw [List.replicate_zero, List.append_nil]
    exact hrest
  | succ n => exact roomGivenUp_add List.length_replicate

/-- A call that makes a sequence of words in room. -/
theorem gather {shape : Shape} {n : Nat} {H R : Cells} {live : List Reg} (a : Address)
    (hR : R.length = n) (hH : H.length = live.length) :
    Outlined (F ++ R ++ H)
      (.mov .rdi (.const n) :: .lea .rsi a :: .call (.routine shape.routine) ::
        (live.map .pop ++ releaseCode n)) [.routine shape.routine.name n] F where
  first _ _ := rfl
  outline m k rest _ := by
    have hcall (c : List Instr) : Scan.outline ⟨F ++ R ++ H, m, k⟩
        (.mov .rdi (.const n) :: .lea .rsi a :: .call (.routine shape.routine) :: c)
          = .routine shape.routine.name n :: Scan.outline ⟨F ++ R ++ H, n, k⟩ c := by
      cases shape <;> rfl
    have hsilent : ∀ i ∈ live.map Instr.pop ++ releaseCode n, i.isSilent = true :=
      List.forall_mem_append.mpr ⟨silent_pops _, silent_releaseCode _⟩
    have hwords : (live.map Instr.pop ++ releaseCode n).foldl Instr.words (F ++ R ++ H) = F := by
      rw [List.foldl_append, words_pops hH, words_releaseCode hR]
    obtain ⟨n', k', h⟩ := Scan.exists_outline_silent (F := F ++ R ++ H) hsilent n k rest
    rw [hwords] at h
    exact ⟨n', k', (hcall _).trans (congrArg _ h)⟩

/-- The room of a call is given up behind it, where it has any. -/
theorem roomGivenUp_behind {n : Nat} {H : Cells} {live : List Reg} (hH : H.length = live.length)
    {rest : List Instr} (hrest : roomGivenUp F rest.head? = 0) :
    roomGivenUp (F ++ H ++ List.replicate n .room)
      (releaseCode n ++ live.map Instr.pop ++ rest).head? = n := by
  cases n with
  | zero =>
    cases live with
    | nil => simpa [List.eq_nil_of_length_eq_zero hH, releaseCode] using hrest
    | cons r live => rfl
  | succ n => exact (roomGivenUp_add List.length_replicate).trans (if_pos (by simp))

/-- A call of a closure with words that were pushed and words in room. -/
theorem apply {n : Nat} {A H : Cells} {live : List Reg}
    (hA : A.length = (argRegisters.take n).length) (hH : H.length = live.length) :
    Outlined (F ++ H ++ List.replicate (n - argRegisters.length) .room ++ A)
      (checkCode ++ .mov .rdi (.reg .rax) :: ((argRegisters.take n).reverse.map .pop ++
        .mov .rax (.reg .rdi) :: .and .rax (~~~Tag.mask).toInt :: .callThrough .rax ::
          (releaseCode (n - argRegisters.length) ++ live.map .pop))) [.apply n] F where
  first _ _ := rfl
  outline m k rest hrest := by
    have hroom := roomGivenUp_behind (n := n - argRegisters.length) hH hrest
    have hsilent : ∀ i ∈ releaseCode (n - argRegisters.length) ++ live.map Instr.pop,
        i.isSilent = true :=
      List.forall_mem_append.mpr ⟨silent_releaseCode _, silent_pops _⟩
    have hwords : (releaseCode (n - argRegisters.length) ++ live.map Instr.pop).foldl Instr.words
        (F ++ H ++ List.replicate (n - argRegisters.length) .room) = F := by
      rw [List.foldl_append, words_releaseCode List.length_replicate, words_pops hH]
    generalize releaseCode (n - argRegisters.length) ++ live.map Instr.pop = back at *
    generalize List.replicate (n - argRegisters.length) Cell.room = R at *
    -- the callee is put into `rdi` right before the pops, which are the words in registers
    have hcheck (c : List Instr) : Scan.outline ⟨F ++ H ++ R ++ A, m, k⟩
        (checkCode ++ .mov .rdi (.reg .rax) :: c) = Scan.outline ⟨F ++ H ++ R ++ A, m, 0⟩ c := rfl
    have hpops : ((argRegisters.take n).reverse.map Instr.pop).foldl Scan.past
        ⟨F ++ H ++ R ++ A, m, 0⟩ = ⟨F ++ H ++ R, m, (argRegisters.take n).length⟩ := by
      rw [past_pops, List.length_reverse, List.length_append, hA, Nat.add_sub_cancel,
        List.take_left, Nat.zero_add]
    have hcall (k : Nat) (c : List Instr) : Scan.outline ⟨F ++ H ++ R, m, k⟩
        (.mov .rax (.reg .rdi) :: .and .rax (~~~Tag.mask).toInt :: .callThrough .rax :: c)
          = .apply (k + roomGivenUp (F ++ H ++ R) c.head?) ::
            Scan.outline ⟨F ++ H ++ R, m, k⟩ c := rfl
    have hpassed : (argRegisters.take n).length + (n - argRegisters.length) = n := by
      rw [List.length_take]
      omega
    obtain ⟨n', k', h⟩ := Scan.exists_outline_silent (F := F ++ H ++ R) hsilent m
      (argRegisters.take n).length rest
    rw [hwords] at h
    have hfetch : Scan.outline ⟨F ++ H ++ R ++ A, m, 0⟩
        ((argRegisters.take n).reverse.map .pop ++
          .mov .rax (.reg .rdi) :: .and .rax (~~~Tag.mask).toInt :: .callThrough .rax ::
            (back ++ rest)) = .apply n :: Scan.outline ⟨F, n', k'⟩ rest := by
      rw [Scan.outline_silent (silent_pops _), hpops, hcall, hroom, hpassed, h]
    refine ⟨n', k', (hcheck _).trans ((congrArg _ ?_).trans hfetch)⟩
    exact List.append_assoc ..

end Outlined

/-! ## Steps that write code -/

/-- Wherever the pass succeeds, it writes code that has the branches and calls `ps` and leads from
the frame `F` to the frame `F'`. -/
def Sketches {α : Type} (F : Cells) (p : Translate α) (ps : List Point) (F' : Cells) : Prop :=
  ∀ ⦃t t' : Translator⦄ ⦃a : α⦄, p.outcome t = (.ok a, t') →
    ∃ c, t'.code.toList = t.code.toList ++ c ∧ Outlined F c ps F'

namespace Sketches

variable {α β : Type} {p : Translate α} {f : α → Translate β}

theorem bind (hp : Sketches F p ps F') (hf : ∀ a, Sketches F' (f a) ps' F'') :
    Sketches F (p >>= f) (ps ++ ps') F'' := by
  intro t t' b h
  obtain ⟨a, t₁, h₁, h₂⟩ := Pass.outcome_bind_ok.mp h
  obtain ⟨c₁, hc₁, ho₁⟩ := hp h₁
  obtain ⟨c₂, hc₂, ho₂⟩ := hf a h₂
  exact ⟨c₁ ++ c₂, by rw [hc₂, hc₁, List.append_assoc], ho₁.append ho₂⟩

/-- What follows has no branches and no calls. -/
theorem bind_silent (hp : Sketches F p ps F') (hf : ∀ a, Sketches F' (f a) [] F'') :
    Sketches F (p >>= f) ps F'' := by
  have := hp.bind hf
  rwa [List.append_nil] at this

/-- A pass that writes nothing. -/
theorem still (h : ∀ t t' a, p.outcome t = (.ok a, t') → t'.code = t.code) :
    Sketches F p [] F := fun t t' a ht ↦ ⟨[], by rw [h t t' a ht, List.append_nil], .nil⟩

theorem still_bind (h : ∀ t t' a, p.outcome t = (.ok a, t') → t'.code = t.code)
    (hf : ∀ a, Sketches F (f a) ps F') : Sketches F (p >>= f) ps F' := (still h).bind hf

theorem pure (a : α) : Sketches F (Pure.pure a) [] F := still fun t t' b h ↦ by
  cases h
  rfl

/-- A pass that always writes the same code. -/
theorem emitted {p : Translate Unit} (hp : ∀ t, ∃ d, p.outcome t = (.ok (), t.emitted c d))
    (hc : Outlined F c ps F') : Sketches F p ps F' := by
  intro t t' a h
  obtain ⟨d, hd⟩ := hp t
  rw [hd] at h
  obtain ⟨-, rfl⟩ := Prod.mk.inj h
  exact ⟨c, by simp [Translator.emitted], hc⟩

theorem emit {i : Instr} (h : Outlined F [i] ps F') : Sketches F (Translate.emit i) ps F' :=
  emitted (fun t ↦ ⟨_, outcome_emit t i⟩) h

theorem emitAll (h : Outlined F c ps F') : Sketches F (Translate.emitAll c) ps F' :=
  emitted (fun t ↦ ⟨_, outcome_emitAll t c⟩) h

theorem push (r : Reg) : Sketches F (Translate.push r) [] (F ++ [Cell.held]) :=
  emitted (fun t ↦ ⟨_, outcome_push t r⟩) (.pushes [r])

theorem pushAll (rs : List Reg) :
    Sketches F (Translate.pushAll rs) [] (F ++ List.replicate rs.length .held) :=
  emitted (fun t ↦ ⟨_, outcome_pushAll t rs⟩) (.pushes rs)

theorem pop {x : Cell} (r : Reg) : Sketches (F ++ [x]) (Translate.pop r) [] F := by
  have hpop : Outlined (F ++ [x]) ([r].map .pop) [] F := .pops rfl
  exact emitted (fun t ↦ ⟨_, outcome_pop t r⟩) hpop

theorem popAll {rs : List Reg} (hG : G.length = rs.length) :
    Sketches (F ++ G) (Translate.popAll rs) [] F :=
  emitted (fun t ↦ ⟨_, outcome_popAll t rs⟩) (.pops hG)

theorem reserve (n : Nat) : Sketches F (Translate.reserve n) [] (F ++ List.replicate n .room) :=
  emitted (fun t ↦ ⟨_, outcome_reserve t n⟩) (.reserve n)

theorem release (n : Nat) : Sketches (F ++ List.replicate n .held) (Translate.release n) [] F :=
  emitted (fun t ↦ ⟨_, outcome_release t n⟩) (.release n)

/-- A frame is entered and left without code. -/
theorem nested {p : Translate Unit} (hp : Sketches F p ps F') :
    Sketches F (Translate.nested p) ps F' := by
  intro t t' a h
  obtain ⟨t₁, h₁, rfl⟩ := Pass.outcome_between_ok.mp h
  obtain ⟨c, hc, ho⟩ := hp h₁
  exact ⟨c, hc, ho⟩

theorem isolated {head : FnHead} {captures : Captures} {id : Nat} {p : Translate Unit}
    (hp : Sketches F p ps F') : Sketches F (Translate.isolated head captures id p) ps F' := by
  intro t t' a h
  obtain ⟨t₁, h₁, rfl⟩ := Pass.outcome_between_ok.mp h
  obtain ⟨c, hc, ho⟩ := hp h₁
  exact ⟨c, hc, ho⟩

end Sketches

/-! ## Constructs -/

/-- Wherever it is translated with success, the expression becomes code that has its branches and
calls, and that leaves the frame as it was. -/
def Sketched (e : Expr) : Prop := ∀ F, Sketches F e.translate e.outline F

theorem Sketches.load (p : Place) : Sketches F (Translate.emitAll p.load) [] F := by
  refine .emitAll (.quiet ?_)
  cases p with
  | param i =>
    rw [Place.load]
    split <;> rfl
  | slot | captured | current | static => rfl

theorem code_resolve {x : String} {line : Nat} (t t' : Translator) (p : Place)
    (h : (resolve x line).outcome t = (.ok p, t')) : t'.code = t.code := by
  rw [((outcome_resolve t).mp h).2]

theorem code_places {xs : List String} {line : Nat} (t t' : Translator) (ps : List Place)
    (h : (places line xs).outcome t = (.ok ps, t')) : t'.code = t.code := by
  rw [((outcome_places t).mp h).2]

/-- A pass that succeeds everywhere and only changes what is not code. -/
theorem code_modify {f : Translator → Translator} (hf : ∀ t, (f t).code = t.code)
    (t t' : Translator) (a : PUnit) (h : (modify f : Translate PUnit).outcome t = (.ok a, t')) :
    t'.code = t.code := by
  cases h
  exact hf t

theorem code_draw (t t' : Translator) (k : Nat) (h : draw.outcome t = (.ok k, t')) :
    t'.code = t.code := by
  cases h
  rfl

theorem code_get (t t' u : Translator) (h : (get : Translate Translator).outcome t = (.ok u, t')) :
    t'.code = t.code := by
  cases h
  rfl

theorem code_depth (t t' : Translator) (d : Nat) (h : depth.outcome t = (.ok d, t')) :
    t'.code = t.code := by
  cases h
  rfl

theorem sketches_literal (v : Literal) : Sketches F (literal v) [] F := by
  cases v with
  | nil | boolean b | number k => exact .emit (.quiet rfl)
  | string s =>
    exact .still_bind code_draw fun _ ↦ .still_bind (code_modify fun _ ↦ rfl) fun _ ↦
      .emitAll (.quiet rfl)

theorem sketched_symbol (x : String) (n : Note) : Sketched (.symbol x n) := fun _ ↦
  .still_bind code_resolve fun p ↦ .load p

theorem sketched_cond {test yes no : Expr} (htest : Sketched test) (hyes : Sketched yes)
    (hno : Sketched no) (n : Note) : Sketched (.cond test yes no n) := by
  intro F
  have htests (id : Nat) : Outlined F [.cmp .rax trueWord.toInt, .je (.yes id)] [.branch] F :=
    ⟨fun _ _ ↦ rfl, fun n k _ _ ↦ ⟨n, k, rfl⟩⟩
  refine .still_bind code_draw fun id ↦ (htest F).bind fun _ ↦ ?_
  refine (Sketches.emitAll (htests id)).bind fun _ ↦ (hno F).bind fun _ ↦ ?_
  refine (Sketches.emitAll (.quiet rfl)).bind fun _ ↦ (hyes F).bind_silent fun _ ↦ ?_
  exact .emit (.quiet rfl)

theorem sketched_seq {steps : List Expr} (hsteps : ∀ e ∈ steps, Sketched e) (n : Note) :
    Sketched (.seq steps n) := by
  intro F
  have hall (es : List Expr) (hes : ∀ e ∈ es, Sketched e) :
      Sketches F (translateAll es) (outlineAll es) F := by
    induction es with
    | nil => exact .pure ()
    | cons e es ih =>
      obtain ⟨he, hes⟩ := List.forall_mem_cons.mp hes
      exact (he F).bind fun _ ↦ ih hes
  rw [Expr.translate]
  cases steps with
  | nil => exact sketches_literal .nil
  | cons e es => exact hall _ hsteps

/-! ## Sequences and calls -/

theorem sketches_fill {es : List Expr} (hes : ∀ e ∈ es, Sketched e) (slot : Nat) :
    Sketches F (fill slot (translateEach es)) (outlineAll es) F := by
  induction es generalizing slot with
  | nil => exact .pure ()
  | cons e es ih =>
    obtain ⟨he, hes⟩ := List.forall_mem_cons.mp hes
    exact (he F).bind fun _ ↦ (Sketches.emit (.quiet rfl)).bind fun _ ↦ ih hes _

theorem sketched_group {es : List Expr} (hes : ∀ e ∈ es, Sketched e) (shape : Shape) (n : Note) :
    Sketched (.group shape es n) := by
  intro F
  rw [Expr.translate, Translate.sequence]
  cases es with
  | nil => exact .emit (.quiet rfl)
  | cons e es =>
    rw [translateEach, List.isEmpty_cons, if_neg (by decide), ← translateEach,
      translateEach_length]
    refine (Sketches.reserve _).bind fun _ ↦ .still_bind code_depth fun base ↦ ?_
    refine (sketches_fill hes base).bind fun _ ↦ .still_bind code_get fun t ↦ ?_
    refine (Sketches.pushAll _).bind fun _ ↦ .emitted (fun u ↦ ?_) (.gather (slotAddress base)
      List.length_replicate (List.length_replicate.trans List.length_reverse.symm))
    simp only [Pass.outcome_bind, outcome_emitAll, outcome_popAll, outcome_release,
      Translator.emitted_emitted]
    exact ⟨_, rfl⟩

theorem sketches_passArgs {es : List Expr} (hes : ∀ e ∈ es, Sketched e) (base i : Nat) :
    Sketches F (passArgs base i (translateEach es)) (outlineAll es)
      (F ++ List.replicate (min es.length (argRegisters.length - i)) .held) := by
  induction es generalizing F i with
  | nil =>
    rw [List.length_nil, Nat.zero_min, List.replicate_zero, List.append_nil]
    exact .pure ()
  | cons e es ih =>
    obtain ⟨he, hes⟩ := List.forall_mem_cons.mp hes
    refine (he F).bind fun _ ↦ ?_
    split
    · next hi =>
      have hmin : min (e :: es).length (argRegisters.length - i)
          = min es.length (argRegisters.length - (i + 1)) + 1 := by
        rw [List.length_cons]
        omega
      rw [hmin, append_replicate_succ]
      exact (Sketches.push .rax).bind fun _ ↦ ih hes (i + 1)
    · next hi =>
      have hmin : min (e :: es).length (argRegisters.length - i)
          = min es.length (argRegisters.length - (i + 1)) := by omega
      rw [hmin]
      exact (Sketches.emit (.quiet rfl)).bind fun _ ↦ ih hes (i + 1)

theorem sketched_call {callee : Expr} {args : List Expr} (hcallee : Sketched callee)
    (hargs : ∀ e ∈ args, Sketched e) (spread : Option Nat) (n : Note) :
    Sketched (.call callee args spread n) := by
  intro F
  have hpassed : ∀ e ∈ passedExprs spread args, Sketched e :=
    forall_passedExprs hargs (fun _ hlist ↦ sketched_group hlist _ _) spread
  rw [Expr.translate, call, passed_translateEach, Expr.outline, ← outlineAll_passedExprs,
    List.append_assoc]
  generalize passedExprs spread args = es at hpassed ⊢
  refine .still_bind code_get fun t ↦ (Sketches.pushAll _).bind fun _ ↦ ?_
  dsimp only
  rw [translateEach_length]
  refine (Sketches.reserve _).bind fun _ ↦ .still_bind code_depth fun base ↦ ?_
  refine (sketches_passArgs hpassed base 0).bind fun _ ↦ (hcallee _).bind fun _ ↦ ?_
  have hwords : (List.replicate (min es.length (argRegisters.length - 0)) Cell.held).length
      = (argRegisters.take es.length).length := by
    rw [List.length_replicate, List.length_take, Nat.sub_zero]
  refine .emitted (fun u ↦ ?_)
    (.apply hwords (List.length_replicate.trans List.length_reverse.symm))
  simp only [Pass.outcome_bind, outcome_emitAll, outcome_popAll, outcome_release,
    Translator.emitted_emitted]
  exact ⟨_, by simp [checkCode]; rfl⟩

/-! ## Bindings and functions -/

theorem sketched_letIn {bs : List (String × Expr)} {body : Expr} (hbs : ∀ b ∈ bs, Sketched b.2)
    (hbody : Sketched body) (n : Note) : Sketched (.letIn bs body n) := by
  intro F
  have hvalues (bs : List (String × Expr)) (hbs : ∀ b ∈ bs, Sketched b.2) (F : Cells) :
      Sketches F (translateBindings bs) (outlineBindings bs)
        (F ++ List.replicate bs.length .held) := by
    induction bs generalizing F with
    | nil =>
      rw [List.length_nil, List.replicate_zero, List.append_nil]
      exact .pure ()
    | cons b bs ih =>
      obtain ⟨name, value⟩ := b
      obtain ⟨hvalue, hbs⟩ := List.forall_mem_cons.mp hbs
      have hslot : Sketches F (bindSlot name) [] (F ++ [Cell.held]) :=
        (Sketches.push .rax).bind fun _ ↦ .still_bind code_depth fun _ ↦
          .still (code_modify fun _ ↦ rfl)
      rw [List.length_cons, append_replicate_succ]
      exact (hvalue F).bind fun _ ↦ hslot.bind fun _ ↦ ih hbs _
  exact .nested ((hvalues bs hbs F).bind fun _ ↦ (hbody _).bind_silent fun _ ↦ .release bs.length)

/-- Closures are allocated and filled without a branch or a call that is listed. -/
theorem sketches_allocate (code : Label) (sources : List Place) :
    Sketches F (allocate code sources) [] F := by
  have hcapture (F : Cells) (offset : Nat) (ps : List Place) :
      Sketches F (capture offset ps) [] F := by
    induction ps generalizing offset with
    | nil => exact .pure ()
    | cons p ps ih =>
      exact (Sketches.load p).bind fun _ ↦ (Sketches.emitAll (.quiet rfl)).bind fun _ ↦ ih _
  refine .still_bind code_get fun t ↦ (Sketches.pushAll _).bind fun _ ↦ ?_
  refine (Sketches.emitAll (.quiet rfl)).bind fun _ ↦ ?_
  refine (Sketches.popAll (List.length_replicate.trans List.length_reverse.symm)).bind fun _ ↦ ?_
  refine (Sketches.emitAll (.quiet rfl)).bind fun _ ↦ (Sketches.push .rax).bind fun _ ↦ ?_
  refine (hcapture _ 8 sources).bind fun _ ↦ (Sketches.pop .rax).bind fun _ ↦ ?_
  exact .emit (.quiet rfl)

theorem sketched_fn {body : Expr} (hbody : Sketched body) (head : FnHead) (n : Note) :
    Sketched (.fn head body n) := by
  intro F
  -- the body goes on in the frame of the text, with the frame pointer on top
  have henter (id : Nat) : Outlined F [.jmp (.after id), .label (.code head.name id), .push .rbp,
      .mov .rbp (.reg .rsp)] [] (F ++ [Cell.held]) :=
    .silent (by simp [Instr.isSilent]) rfl fun _ _ ↦ rfl
  have hleave (id : Nat) : Outlined (F ++ [Cell.held]) [.pop .rbp, .ret, .label (.after id)] [] F :=
    .silent (by simp [Instr.isSilent]) List.dropLast_concat fun _ _ ↦ rfl
  refine .still_bind code_draw fun id ↦ .still_bind code_places fun sources ↦ ?_
  refine (Sketches.emitAll (henter id)).bind fun _ ↦ ?_
  refine (Sketches.isolated (hbody _)).bind_silent fun _ ↦ ?_
  refine (Sketches.emitAll (hleave id)).bind fun _ ↦ ?_
  split
  · refine .still_bind (code_modify fun _ ↦ rfl) fun _ ↦ (Sketches.load _).bind fun _ ↦ ?_
    split
    · exact .still (code_modify fun _ ↦ rfl)
    · exact .pure ()
  · exact sketches_allocate _ _

/-! ## Both back ends -/

theorem sketched (e : Expr) : Sketched e := by
  induction e using Expr.memberInduction with
  | literal v n => exact fun _ ↦ sketches_literal v
  | symbol name n => exact sketched_symbol name n
  | group shape elems n helems => exact sketched_group helems shape n
  | cond test yes no n htest hyes hno => exact sketched_cond htest hyes hno n
  | letIn bindings body n hbindings hbody => exact sketched_letIn hbindings hbody n
  | fn head body n hbody => exact sketched_fn hbody head n
  | seq steps n hsteps => exact sketched_seq hsteps n
  | call callee args spread n hcallee hargs => exact sketched_call hcallee hargs spread n

/-- The code of an expression has its branches and calls. -/
theorem codeOutline_since {t t' : Translator} {e : Expr}
    (h : e.translate.outcome t = (.ok (), t')) : codeOutline (t.since t') = e.outline := by
  obtain ⟨c, hc, ho⟩ := sketched e [] h
  have hsince : t.since t' = c := by
    rw [Translator.since, hc, ← Array.length_toList, List.drop_left]
  obtain ⟨n, k, hall⟩ := ho.outline 0 0 [] rfl
  rw [List.append_nil] at hall
  rw [hsince, codeOutline, hall]
  exact List.append_nil _

/-- The block of an expression and its machine code have the same branches and calls, in the order
of the text. -/
theorem branches_and_calls_agree {l l' : Ir.Lowerer} {t t' : Translator} {e : Expr} {tree : Ir.Tree}
    (hl : l.Reached) (hlower : e.lower.outcome l = (.ok tree, l'))
    (htranslate : e.translate.outcome t = (.ok (), t')) (n : Nat) :
    (tree.block.run n).1.outline = codeOutline (t.since t') :=
  (block_outline hl hlower n).trans (codeOutline_since htranslate).symm

/-- A call of a function with eight arguments, the last two in a list, whose result is dropped. -/
def gatheringExpr : Expr :=
  .seq
    [ .call
        (.fn ⟨none, ["a", "b", "c", "d", "e", "f"], some "rest", false⟩
          (.cond (.symbol "a" default) (.symbol "rest" default)
            (.group .vector [.symbol "b" default] default) default) default)
        (List.replicate 8 (.literal (.number 0) default)) (some 6) default,
      .literal .nil default ] default

/-- The words that do not go into registers are in room that is given up behind the call. -/
theorem gatheringExpr_agrees : ∃ tree l t,
    gatheringExpr.lower.outcome (.start 0) = (.ok tree, l) ∧
    gatheringExpr.translate.outcome (.start 0) = (.ok (), t) ∧
    (tree.block.run l.next).1.outline = codeOutline ((Translator.start 0).since t) ∧
    codeOutline ((Translator.start 0).since t)
      = [.routine "__make_list" 2, .branch, .routine "__make_vector" 1, .apply 7] := by
  obtain ⟨tree, l, hlower⟩ : ∃ tree l, gatheringExpr.lower.outcome (.start 0) = (.ok tree, l) :=
    Pass.exists_outcome_ok (by decide +kernel)
  obtain ⟨_, t, htranslate⟩ : ∃ u t, gatheringExpr.translate.outcome (.start 0) = (.ok u, t) :=
    Pass.exists_outcome_ok (by decide +kernel)
  exact ⟨tree, l, t, hlower, htranslate,
    branches_and_calls_agree (.start 0) hlower htranslate _, codeOutline_since htranslate⟩

end TaggedLisp.Machine
