import TaggedLisp.Proofs.Machine.Bodies

/-!
# Closures hold snapshots

A function that captures variables is made in two places of the program that know of each other only
by numbers. Where it is made, the words of the captured variables are copied into a block of memory,
one after another; in its body, each of these variables is a number that is counted off from the
start of the block. The words come from wherever the function around it keeps them, and they are
loaded while registers are saved and the address of the block stands on the stack.

Both places agree (`closures_hold_snapshots`). The block has room for the address of the code and
one word for each variable, in their order; a variable that the body does not bind again is found
under its own number; and whatever happens between making the closure and the load, as long as the
block is in use, the load gives the word that the variable had when the closure was made. As this is
said of every frame, it holds for closures that are made in the body as well.
-/

namespace TaggedLisp.Machine

open Translate

variable {S : Setting} {σ τ υ : State} {t t' v : Translator} {O : Oracle S} {head : FnHead}
  {body : Expr} {m : Note} {ws : List Word} {w : Word}

/-! ## The words of names -/

/-- A name has a word where a translator looks for it. -/
def Translator.HasWord (S : Setting) (t : Translator) (σ : State) (x : String) (w : Word) : Prop :=
  ∃ p, t.scopes.lookup x = some p ∧ p.Holds S t.activation σ w

theorem Translator.HasWord.unique {x : String} {w' : Word} (h : t.HasWord S σ x w)
    (h' : t.HasWord S σ x w') : w = w' := by
  obtain ⟨p, hp, h⟩ := h
  obtain ⟨p', hp', h'⟩ := h'
  obtain rfl := Option.some.inj (hp.symm.trans hp')
  exact h.unique h'

/-! ## Making a closure -/

/-- What writing words side by side looks like from outside. -/
def writes (a : Nat) (ws : List Word) : List Event := ws.mapIdx fun i w ↦ .write (a + 8 * i) w

theorem writes_cons (a : Nat) (w : Word) (ws : List Word) :
    writes a (w :: ws) = .write a w :: writes (a + 8) ws := by
  have hnext : ∀ i, a + 8 * (i + 1) = a + 8 + 8 * i := fun i ↦ by omega
  simp only [writes, List.mapIdx_cons, Nat.mul_zero, Nat.add_zero, hnext]

/-- Run from `σ`, the code asks the runtime for a block of `bytes` bytes. If it gets one, it writes
the words into it, one after another from its start on, and comes to its end with the closure that
they make up in `rax`. -/
def MakesClosure (O : Oracle S) (code : List Instr) (σ : State) (bytes : Nat) (words : List Word) :
    Prop :=
  ∃ σ₁, (σ₁.reg .rax).toNat = bytes ∧
    (O.answer [] (.label (.routine .allocate)) σ₁ = none →
      Runs O code [] 0 σ [] (.waiting (.label (.routine .allocate))) σ₁) ∧
    ∀ σ₂, O.answer [] (.label (.routine .allocate)) σ₁ = some σ₂ → ∃ τ,
      Runs O code [] 0 σ
        (.call (.label (.routine .allocate)) σ₁ σ₂ :: writes (σ₂.reg .rax).toNat words)
        .finished τ ∧
      (τ.reg .rax).untagged = σ₂.reg .rax ∧ IsClosure τ (τ.reg .rax) words

theorem Follows.of_write {α : Type} {a : Nat} {k : Unit → Evaluation α} {es : List Event}
    {r : Outcome α} (h : Follows (Evaluation.write a ws >>= k) es r) :
    ∃ es', es = writes a ws ++ es' ∧ Follows (k ()) es' r := by
  induction ws generalizing a es with
  | nil => exact ⟨es, rfl, h⟩
  | cons w ws ih =>
    cases h with
    | write rest =>
      obtain ⟨es', rfl, hk⟩ := ih rest
      exact ⟨es', by rw [writes_cons, List.cons_append], hk⟩

/-- The events of making a closure: there is one call, and if it is answered the words follow. -/
theorem Follows.of_allocate {code : Word} {es : List Event} {r : Outcome Word}
    (h : Follows (.allocate code ws) es r) :
    es = [] ∧ r = .waits (.allocate (8 * (1 + ws.length))) ∨
      ∃ target σ₁ σ₂, es = .call target σ₁ σ₂ :: writes (σ₂.reg .rax).toNat (code :: ws) ∧
        Hands (.allocate (8 * (1 + ws.length))) target σ₁ ∧
        r = .result ((σ₂.reg .rax).tagged .closure) := by
  cases h with
  | wait => exact Or.inl ⟨rfl, rfl⟩
  | @call _ _ target σ₁ σ₂ _ _ hands rest =>
    obtain ⟨es', rfl, hdone⟩ := Follows.of_write rest
    cases hdone
    exact Or.inr ⟨target, σ₁, σ₂, by rw [List.append_nil], hands, rfl⟩

/-- The places of captured variables hold the words of the variables. -/
private theorem sources_hold {names : List String} {ps : List Place}
    (hps : names.mapM t.scopes.lookup = some ps)
    (hwords : List.Forall₂ (t.HasWord S σ) names ws) :
    List.Forall₂ (fun p w ↦ p.Holds S t.activation σ w) ps ws := by
  have hall := Scopes.forall₂_of_mapM hps
  clear hps
  induction hwords generalizing ps with
  | nil =>
    cases hall
    exact .nil
  | cons hx _ ih =>
    cases hall with
    | cons hp hall =>
      obtain ⟨p, hp', hholds⟩ := hx
      obtain rfl := Option.some.inj (hp'.symm.trans hp)
      exact .cons hholds (ih hall)

/-- The code of a function that captures variables makes a closure of the words that they have. -/
theorem fn_makes_closure (O : Oracle S)
    (hfn : (Expr.fn head body m).translate.outcome t = (.ok (), t')) (hs : t.scopes.WellFormed)
    (hcaptures : m.captures ≠ []) (hframed : Framed t.activation.depth σ)
    (hfits : S.Fits (t.since t') σ) (hwords : List.Forall₂ (t.HasWord S σ) m.captures ws) :
    MakesClosure O (t.since t') σ (8 * (1 + m.captures.length))
      (S.address (.code head.name t.next) :: ws) := by
  obtain ⟨v, sources, -, hsources, hsince⟩ := fn_emits hfn hs
  have hholds := sources_hold hsources hwords
  have hlen := hwords.length_eq
  have hnonempty : sources.isEmpty = false := by
    rw [← isEmpty_eq_of_mapM hsources, List.isEmpty_eq_false_iff]
    exact hcaptures
  rw [makeCode, hnonempty, if_neg (by decide)] at hsince
  have hlink : Linkable (t.since t') := by
    obtain ⟨c, e, -⟩ := correct S (.fn head body m) hfn hs
    exact e.since_eq.symm ▸ .of_numbered e.numbered
  rw [hsince] at hfits
  have hexec := executes_fn hholds hframed hfits
  -- what is asked for is a number of bytes that a word can hold
  have hbytes : (BitVec.ofNat 64 (8 * (1 + ws.length))).toNat = 8 * (1 + m.captures.length) := by
    have hroom := hfits.make
    have hcopied := length_le_room_captureCode 8 sources
    have htop : σ.top < 2 ^ 64 := (σ.reg .rsp).isLt
    have := hholds.length_eq
    simp only [Setting.Fits, allocateCode, room_append, room_pushes, room_cons, room_nil,
      Instr.room] at hroom
    rw [BitVec.toNat_ofNat]
    omega
  rw [← hsince] at hexec
  obtain ⟨es, s, τ, r, hruns, hfollows, hends⟩ := hexec.runs O hlink
  rcases Follows.of_allocate hfollows with ⟨rfl, rfl⟩ | ⟨target, σ₁, σ₂, rfl, hands, rfl⟩
  · obtain ⟨target, rfl, rfl, hrax⟩ := hends
    have hanswer := hruns.answer_of_waiting
    refine ⟨τ, by rw [hrax, hbytes], fun _ ↦ hruns, fun σ₂ hσ₂ ↦ ?_⟩
    rw [hanswer] at hσ₂
    cases hσ₂
  · obtain ⟨rfl, hrax⟩ := hands
    obtain ⟨rfl, ⟨-, hresult⟩, hclosure⟩ := hends
    have hanswer := hruns.answer_of_call
    have haligned := ((O.allowed _ _ _ _ hanswer).fresh rfl).aligned
    refine ⟨σ₁, by rw [hrax, hbytes], fun hnone ↦ ?_, fun σ₂' hσ₂ ↦ ?_⟩
    · rw [hanswer] at hnone
      cases hnone
    · obtain rfl := Option.some.inj (hanswer.symm.trans hσ₂)
      exact ⟨τ, hruns, hresult ▸ untagged_tagged haligned .closure, hresult ▸ hclosure⟩

/-! ## Running a closure -/

/-- A closure is running: it is in `rdi`, its words stand in memory that calls keep, and the stack
lies above them. -/
structure Running (S : Setting) (σ : State) (f : Word) (words : List Word) : Prop where
  rdi : σ.reg .rdi = f
  closure : IsClosure σ f words
  kept : ∀ i < words.length, S.kept (f.untagged.toNat + 8 * i)
  floor : S.floor ≤ 2 ^ 64

namespace Running

variable {f code : Word} {k : Nat}

/-- Code that saves the closure and leaves memory in use alone keeps it running. -/
theorem keeps {words : List Word} {live : List Reg} {j : Nat} (h : Running S σ f words)
    (hrdi : .rdi ∈ live) (hτ : Keeps S live j σ τ) : Running S τ f words where
  rdi := (hτ.live _ hrdi).trans h.rdi
  closure := ⟨h.closure.tag, h.closure.stored.congr fun i hi ↦ hτ.mem _ (Or.inl (h.kept i hi))⟩
  kept := h.kept
  floor := h.floor

/-- The address of a captured word does not run over. -/
theorem index_eq (h : Running S σ f (code :: ws)) (hk : k < ws.length) :
    (Address.mk .rdi (8 * (k + 1))).index (σ.untag .rdi) = f.untagged.toNat + 8 * (k + 1) := by
  have hlt := S.kept_lt_floor _ (h.kept (k + 1) (Nat.succ_lt_succ hk))
  have hfloor := h.floor
  have hoffset : (8 * (k + 1) : Int) = ((8 * (k + 1) : Nat) : Int) := by
    push_cast
    rfl
  rw [Address.index, Address.value, State.untag, State.reg_set_self, h.rdi, hoffset,
    BitVec.ofInt_natCast, BitVec.toNat_add, BitVec.toNat_ofNat]
  omega

/-- The number of a captured variable leads to its word. -/
theorem holds {a : Activation} (h : Running S σ f (code :: ws)) (ha : a.inFunction = true)
    (hw : ws[k]? = some w) : (Place.captured k).Holds S a σ w := by
  have hk : k < ws.length := (List.getElem?_eq_some_iff.mp hw).1
  refine ⟨ha, ?_⟩
  rw [h.index_eq hk]
  exact ⟨Or.inl (h.kept (k + 1) (Nat.succ_lt_succ hk)), h.closure.stored (k + 1) w hw⟩

end Running

/-- The load of a place reads memory: all but its last instruction make the address `a`, where the
word `w` stands, and the last one loads it from there. -/
def LoadsFrom (S : Setting) (σ : State) (p : Place) (a : Nat) (w : Word) : Prop :=
  (∃ front address, p.load = front ++ [.mov .rax (.memory address)] ∧
    Executes S front σ (.done ()) fun _ τ ↦ address.index τ = a ∧ τ.mem a = w) ∧
  Executes S p.load σ (.done ()) fun _ τ ↦ τ.reg .rax = w

theorem Running.loads {f code : Word} {k : Nat} (h : Running S σ f (code :: ws))
    (hrbp : (σ.reg .rbp).toNat % 8 = 0) (hw : ws[k]? = some w) :
    LoadsFrom S σ (.captured k) (f.untagged.toNat + 8 * (k + 1)) w := by
  have hk : k < ws.length := (List.getElem?_eq_some_iff.mp hw).1
  refine ⟨⟨_, ⟨.rax, 8 * (k + 1)⟩, rfl, Executes.untagged.mono ?_⟩, ?_⟩
  · rintro _ τ ⟨hrax, hτ⟩
    refine ⟨?_, ?_⟩
    · rw [← h.index_eq hk]
      simp only [Address.index, Address.value, State.untag, State.reg_set_self, hrax]
    · rw [hτ.mem]
      exact h.closure.stored (k + 1) w hw
  · exact (Executes.place (h.holds (a := ⟨true, 0, 0⟩) rfl hw) hrbp).mono fun _ _ hτ ↦ hτ.1

/-- The prologue of the function leaves the closure as it is. -/
theorem Running.entered {f : Word} {words : List Word} (h : Running S σ f words)
    (hreg : ∀ r, r ≠ .rsp → r ≠ .rbp → τ.reg r = σ.reg r)
    (hmem : ∀ a, a < S.floor ∨ σ.top ≤ a → τ.mem a = σ.mem a) : Running S τ f words where
  rdi := (hreg _ (by decide) (by decide)).trans h.rdi
  closure := ⟨h.closure.tag, h.closure.stored.congr fun i hi ↦
    hmem _ (Or.inl (S.kept_lt_floor _ (h.kept i hi)))⟩
  kept := h.kept
  floor := h.floor

/-! ## What the body computes -/

/-- The words of the global names, which stand for closures. -/
def Translator.globalWords (address : Label → Word) (t : Translator) : List (String × Word) :=
  t.scopes.globals.map fun b ↦
    match b.2 with
    | .static l => (b.1, closureWord address l)
    | _ => (b.1, 0)

/-- The words of the names with which the body of a function starts: those of the captured variables
are in the closure `f`, those of the parameters are the arguments of the call. -/
def bodyWords (head : FnHead) (captures : Captures) (f : Word) (ws : List Word) (σ : State) :
    List (String × Word) :=
  captures.zip ws ++ head.allParams.mapIdx (fun i x ↦ (x, argument i σ)) ++
    head.name.toList.map (·, f)

/-- Behind the prologue, the names of a body have their words. -/
theorem body_agrees {f code : Word} (hs : t.scopes.WellFormed) (hstatic : t.GlobalsStatic)
    (hcaptures : m.captures ≠ []) (hlen : m.captures.length = ws.length)
    (hrunning : Running S τ f (code :: ws)) (hframed : Framed 0 τ) (htop : τ.top + 16 = σ.top)
    (hlt : σ.top + 8 * head.allParams.length < 2 ^ 64)
    (hreg : ∀ r, r ≠ .rsp → r ≠ .rbp → τ.reg r = σ.reg r)
    (hmem : ∀ a, a < S.floor ∨ σ.top ≤ a → τ.mem a = σ.mem a) :
    Agrees S (t.entering head m.captures) (fun x ↦ (t.globalWords S.address).lookup x)
      (fun x ↦ (bodyWords head m.captures f ws σ).reverse.lookup x) τ := by
  have hin : (t.entering head m.captures).activation.inFunction = true := rfl
  refine .of_forall₂ (wellFormed_entering hs ..) ?_ ?_
  · rw [locals_entering hs, List.forall₂_reverse_iff, bodyPlaces, bodyWords]
    refine List.rel_append (List.rel_append ?_ ?_) ?_
    · refine List.forall₂_iff_get.mpr ⟨by simp [hlen], fun k h₁ h₂ ↦ ?_⟩
      simp only [List.get_eq_getElem, List.getElem_mapIdx, List.getElem_zip]
      exact ⟨rfl, hrunning.holds hin (List.getElem?_eq_getElem _)⟩
    · refine List.forall₂_iff_get.mpr ⟨by simp, fun i h₁ h₂ ↦ ?_⟩
      have hi : i < head.allParams.length := by simpa using h₁
      simp only [List.get_eq_getElem, List.getElem_mapIdx]
      exact ⟨rfl, param_holds hin hi hframed htop (by omega) hreg fun b hb ↦ hmem b (Or.inr hb)⟩
    · have hown : m.captures.isEmpty = false := List.isEmpty_eq_false_iff.mpr hcaptures
      rw [hown, if_neg (by decide), List.forall₂_map_left_iff, List.forall₂_map_right_iff]
      exact List.forall₂_same.mpr fun x _ ↦ ⟨rfl, hin, hrunning.rdi⟩
  · rw [globals_entering hs, Translator.globalWords, List.forall₂_map_right_iff]
    refine List.forall₂_same.mpr ?_
    rintro ⟨x, p⟩ hb
    obtain ⟨l, rfl⟩ : ∃ l, p = .static l := hstatic _ hb
    exact ⟨rfl, rfl⟩

/-- Called as a closure, the code of a body computes what the body evaluates to with these words. -/
theorem executes_body {f code back : Word} (hs : t.scopes.WellFormed) (hstatic : t.GlobalsStatic)
    (hcaptures : m.captures ≠ []) (hlen : m.captures.length = ws.length)
    (hbody : body.translate.outcome (t.entering head m.captures) = (.ok (), v))
    (hrunning : Running S σ f (code :: ws)) (hal : σ.top % 8 = 0)
    (hroom : S.floor + 16 + 8 * room ((t.entering head m.captures).since v) ≤ σ.top)
    (hlt : σ.top + 8 * head.allParams.length < 2 ^ 64) :
    Executes S (prologue ++ (t.entering head m.captures).since v) (σ.entered back)
      (body.eval S.address ⟨t.next + 1, fun x ↦ (t.globalWords S.address).lookup x⟩
        fun x ↦ (bodyWords head m.captures f ws σ).reverse.lookup x)
      fun w τ ↦ τ.reg .rax = w := by
  obtain ⟨c, e, r⟩ := correct S body hbody (wellFormed_entering hs ..)
  rw [e.since_eq] at hroom ⊢
  refine (executes_prologue back hal (by omega)).andThen ?_
  rintro τ ⟨hframed, htop, hreg, hmem⟩
  have hagrees := body_agrees hs hstatic hcaptures hlen (hrunning.entered hreg hmem) hframed htop
    hlt hreg hmem
  refine (r ⟨hagrees, hframed⟩ ?_).mono fun w υ hυ ↦ hυ.2
  rw [Setting.Fits]
  omega

/-! ## Both together -/

/-- **Closures hold snapshots.** The code of a function with captured variables, run in any frame,
asks for eight bytes for the address of its code and eight for each variable, and writes them there
in this order: the address, and then the words that the variables have in the frame at that moment,
wherever the frame keeps them. In the body, a name stands for a number in the closure only if it is
the name of the variable with this number, and the captured variables, among which are all free
names that are local outside, do so wherever their names are not bound again. When the closure is
called, the load of such a number reads the block at the place of the variable and nothing outside
of it, and gives the word that the variable had when the closure was made; the body evaluates to
what it does with these words. -/
theorem closures_hold_snapshots (O : Oracle S)
    (hfn : (Expr.fn head body m).translate.outcome t = (.ok (), t')) (hs : t.scopes.WellFormed)
    (hstatic : t.GlobalsStatic) (hcaptures : m.captures ≠ [])
    (hframed : Framed t.activation.depth σ) (hfits : S.Fits (t.since t') σ)
    (hwords : List.Forall₂ (t.HasWord S σ) m.captures ws) :
    MakesClosure O (t.since t') σ (8 * (1 + m.captures.length))
      (S.address (.code head.name t.next) :: ws) ∧
    (∀ (bound : List String) (v : Translator) (inner : Expr),
      inner.TranslateReaches v bound (t.entering head m.captures) body →
      v.scopes.WellFormed ∧ v.GlobalsStatic ∧
      (∀ x k, v.scopes.lookup x = some (.captured k) → m.captures[k]? = some x) ∧
      (∀ x ∈ m.captures, x ∉ head.allParams ++ head.name.toList ++ bound →
        ∃ k, m.captures[k]? = some x ∧ v.scopes.lookup x = some (.captured k)) ∧
      ∀ s ds, s.WellFormed → Scoped s (.expr (.fn head body m)) ds →
        ∀ x ∈ inner.free, s.isLocal x = true → x ∉ head.allParams ++ head.name.toList ++ bound →
          x ∈ m.captures) ∧
    ∃ v make, body.translate.outcome (t.entering head m.captures) = (.ok (), v) ∧
      t.since t' = fnCode head.name t.next ((t.entering head m.captures).since v) make ∧
      ∀ (S' : Setting) (σ' : State) (f back : Word),
        Running S' σ' f (S.address (.code head.name t.next) :: ws) → σ'.top % 8 = 0 →
        S'.floor + 16 + 8 * room ((t.entering head m.captures).since v) ≤ σ'.top →
        (Executes S' prologue (σ'.entered back) (.done ()) fun _ τ ↦ ∀ j υ,
          Keeps S' (t.entering head m.captures).activation.liveRegisters j τ υ →
            (∀ k w, ws[k]? = some w → 8 * (k + 1) + 8 ≤ 8 * (1 + m.captures.length) ∧
              LoadsFrom S' υ (.captured k) (f.untagged.toNat + 8 * (k + 1)) w) ∧
            ∀ (bound : List String) (v : Translator) (inner : Expr),
              inner.TranslateReaches v bound (t.entering head m.captures) body →
              ∀ x ∈ m.captures, x ∉ head.allParams ++ head.name.toList ++ bound →
                ∀ w, t.HasWord S σ x w → v.HasWord S' υ x w) ∧
        (σ'.top + 8 * head.allParams.length < 2 ^ 64 →
          Executes S' (prologue ++ (t.entering head m.captures).since v) (σ'.entered back)
            (body.eval S'.address ⟨t.next + 1, fun x ↦ (t.globalWords S'.address).lookup x⟩
              fun x ↦ (bodyWords head m.captures f ws σ').reverse.lookup x)
            fun w υ ↦ υ.reg .rax = w) := by
  have hlen := hwords.length_eq
  have hentering := wellFormed_entering hs head m.captures
  obtain ⟨v, sources, hbody, -, hsince⟩ := fn_emits hfn hs
  refine ⟨fn_makes_closure O hfn hs hcaptures hframed hfits hwords, fun bound v inner hreach ↦ ?_,
    v, _, hbody, hsince, fun S' σ' f back hrunning hal hroom ↦ ⟨?_, fun hlt ↦
      executes_body hs hstatic hcaptures hlen hbody hrunning hal hroom hlt⟩⟩
  · have hdeeper := hreach.deeper hentering
    refine ⟨hdeeper.wellFormed, hdeeper.globalsStatic ?_, fun x k ↦
      lookup_eq_captured hdeeper hs hstatic, fun x hx ↦ lookup_captured hdeeper hs hx,
      fun s ds hwf hscoped x ↦ mem_captures_of_free hscoped hwf hreach⟩
    rw [Translator.GlobalsStatic, globals_entering hs]
    exact hstatic
  · refine (executes_prologue back hal (by omega)).mono ?_
    rintro _ τ ⟨hframed', -, hreg, hmem⟩ j υ hυ
    have hrdi := Activation.rdi_mem (a := (t.entering head m.captures).activation) rfl
    have hυrunning := (hrunning.entered hreg hmem).keeps hrdi hυ
    refine ⟨fun k w hw ↦ ⟨?_, hυrunning.loads (hframed'.keeps hυ).rbp_aligned hw⟩,
      fun bound v inner hreach x hx hbound w hword ↦ ?_⟩
    · have hk : k < ws.length := (List.getElem?_eq_some_iff.mp hw).1
      omega
    · have hdeeper := hreach.deeper hentering
      obtain ⟨k, hk, hlookup⟩ := lookup_captured hdeeper hs hx hbound
      obtain ⟨hlt, rfl⟩ := List.getElem?_eq_some_iff.mp hk
      -- the word under the number of a variable is the one that it had
      have hw := (List.forall₂_iff_get.mp hwords).2 k hlt (hlen ▸ hlt)
      obtain rfl := hword.unique hw
      exact ⟨_, hlookup, hυrunning.holds hdeeper.inFunction (List.getElem?_eq_getElem _)⟩

/-- A machine with objects in use from an address on. -/
def heapSetting (used : Nat) : Setting :=
  ⟨fun _ ↦ 128, 1024, fun a ↦ used ≤ a ∧ a < 1024, fun _ h ↦ h.2⟩

/-- The memory below the objects in use is provided for every request that it holds. -/
def heapOracle : Oracle (heapSetting 512) where
  answer _ target σ :=
    if target = .label (.routine .allocate) ∧ (σ.reg .rax).toNat ≤ 512 then some (σ.set .rax 0)
    else none
  allowed _ target σ τ h := by
    split at h
    · next hle =>
      obtain rfl := Option.some.inj h
      have hend : 0 + (σ.reg .rax).toNat ≤ 512 := (Nat.zero_add _).symm ▸ hle.2
      refine ⟨rfl, rfl, fun _ _ ↦ rfl, fun _ ↦ ?_⟩
      rw [State.reg_set_self]
      refine ⟨rfl, Nat.le_trans hend (by decide), fun a _ ha hkept ↦ ?_⟩
      exact Nat.not_le_of_lt (Nat.lt_of_lt_of_le ha hend) hkept.1
    · cases h

/-- A translator in a function with six parameters and captured variables, behind one word that was
pushed: the names stand for places of every kind. -/
def mixedTranslator : Translator where
  next := 7
  scopes := (Scopes.empty.enterFrom ScopeId.global).defineAll
    [ ("a", .captured 0), ("p", .param 5), ("own", .current),
      ("f", .static (.closure (some "f") 3)), ("x", .slot 1) ]
  activation := ⟨true, 6, 1⟩
  code := #[]
  data := #[]

/-- The running closure lies at the address 512 and has captured the word 10. The sixth argument is
11, and the word that was pushed is 12. -/
def mixedState : State where
  reg r := if r = .rsp then 4096 else if r = .rbp then 4104 else if r = .rdi then 515 else 0
  mem a := if a = 520 then 10 else if a = 4120 then 11 else if a = 4096 then 12 else 0
  zero := false

/-- The expression `(fn [y] [a p own f x])`. -/
def mixedFn : Expr :=
  .fn ⟨none, ["y"], none, false⟩
    (.group .vector (["a", "p", "own", "f", "x"].map fun x ↦ .symbol x default) default)
    ⟨.any, ["a", "p", "own", "f", "x"], default⟩

/-- The code of the expression. -/
def mixedCode : List Instr :=
  mixedTranslator.since (mixedFn.translate.outcome mixedTranslator).2

/-- The closure of the expression, called when its block is at the address zero. -/
def calledState : State where
  reg r := if r = .rsp then 4096 else if r = .rdi then 3 else 0
  mem a := [128, 10, 11, 515, 131, 12].getD (a / 8) 0
  zero := false

/-- The words come from a captured word, a parameter on the stack, the running closure, a closure in
the data section and a variable of a `let`, and are loaded from the block again. -/
theorem mixedFn_snapshots :
    (∃ σ₁ σ₂ τ, (σ₁.reg .rax).toNat = 48 ∧
      Runs heapOracle mixedCode [] 0 mixedState
        [ .call (.label (.routine .allocate)) σ₁ σ₂, .write 0 128, .write 8 10, .write 16 11,
          .write 24 515, .write 32 131, .write 40 12 ] .finished τ) ∧
    Executes (heapSetting 0) prologue (calledState.entered 0) (.done ()) fun _ τ ↦
      LoadsFrom (heapSetting 0) τ (.captured 1) 16 11 ∧
        (mixedTranslator.entering ⟨none, ["y"], none, false⟩ ["a", "p", "own", "f", "x"]).HasWord
          (heapSetting 0) τ "p" 11 := by
  have hfn : mixedFn.translate.outcome mixedTranslator
      = (.ok (), (mixedFn.translate.outcome mixedTranslator).2) := Prod.ext (by rfl) rfl
  have hs : mixedTranslator.scopes.WellFormed :=
    (Scopes.wellFormed_empty.enterFrom Scopes.wellFormed_empty.global_lt).defineAll _
  have hglobals : mixedTranslator.scopes.globals = [] := by rfl
  have hstatic : mixedTranslator.GlobalsStatic := by
    rw [Translator.GlobalsStatic, hglobals]
    exact List.forall_mem_nil _
  have ha : mixedTranslator.HasWord (heapSetting 512) mixedState "a" 10 :=
    ⟨.captured 0, by rfl, rfl, Or.inl ⟨by decide, by decide⟩, by decide⟩
  have hp : mixedTranslator.HasWord (heapSetting 512) mixedState "p" 11 :=
    ⟨.param 5, by rfl, rfl, by decide, Or.inr (by decide), by decide⟩
  have hown : mixedTranslator.HasWord (heapSetting 512) mixedState "own" 515 :=
    ⟨.current, by rfl, rfl, rfl⟩
  have hf : mixedTranslator.HasWord (heapSetting 512) mixedState "f" 131 :=
    ⟨.static (.closure (some "f") 3), by rfl, rfl⟩
  have hx : mixedTranslator.HasWord (heapSetting 512) mixedState "x" 12 :=
    ⟨.slot 1, by rfl, Or.inr (by decide), by decide⟩
  have hwords : List.Forall₂ (mixedTranslator.HasWord (heapSetting 512) mixedState)
      ["a", "p", "own", "f", "x"] [10, 11, 515, 131, 12] :=
    .cons ha (.cons hp (.cons hown (.cons hf (.cons hx .nil))))
  obtain ⟨⟨σ₁, hbytes, -, hmade⟩, -, v, make, hbody, -, hcalled⟩ :=
    closures_hold_snapshots heapOracle hfn hs hstatic (List.cons_ne_nil _ _)
      ⟨by decide, by decide⟩ (Nat.le_of_ble_eq_true rfl) hwords
  have hbytes : (σ₁.reg .rax).toNat = 48 := hbytes
  refine ⟨?_, ?_⟩
  · have hanswer : heapOracle.answer [] (.label (.routine .allocate)) σ₁
        = some (σ₁.set .rax 0) := if_pos ⟨rfl, hbytes ▸ by decide⟩
    obtain ⟨τ, hruns, -⟩ := hmade _ hanswer
    rw [State.reg_set_self] at hruns
    exact ⟨σ₁, σ₁.set .rax 0, τ, hbytes, hruns⟩
  · have hrunning : Running (heapSetting 0) calledState 3 [128, 10, 11, 515, 131, 12] := by
      have hblock : (3 : Word).untagged.toNat = 0 := by decide
      refine ⟨rfl, ⟨by decide, fun i w hw ↦ ?_⟩, fun i hi ↦ ?_, by decide⟩
      · rw [hblock, Nat.zero_add, calledState]
        dsimp only
        rw [Nat.mul_div_cancel_left _ (by decide), List.getD_eq_getElem?_getD, hw, Option.getD_some]
      · rw [hblock, Nat.zero_add]
        have hi : i < 6 := hi
        exact ⟨Nat.zero_le _, by omega⟩
    refine (hcalled _ _ 3 0 hrunning (by decide) ?_).1.mono ?_
    · cases hbody
      decide
    intro _ τ hτ
    obtain ⟨hloads, hnames⟩ := hτ 0 τ .refl
    exact ⟨(hloads 1 11 rfl).2, hnames [] _ _ .here "p" (by decide) (by decide) 11 hp⟩

end TaggedLisp.Machine
