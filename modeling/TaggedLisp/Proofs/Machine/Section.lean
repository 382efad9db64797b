import TaggedLisp.Proofs.Machine.Labels

/-!
# The data section

What the assembler makes of directives: a number and an address take eight bytes, a list of bytes
takes as many bytes as it has, a label takes none, and an alignment fills up to the next multiple of
eight. The section starts with an alignment, and each piece of data takes whole words, so each of
them starts at a multiple of eight, however long the texts before it are
(`Program.holds_of_mem`).

Addresses are known only when the program is linked, and nothing is said of what fills up; both
stand in the section as what they are.
-/

namespace TaggedLisp.Machine

/-! ## Bytes -/

/-- A byte of the data section. -/
inductive SectionByte where
  | value (byte : UInt8)
  /-- A byte of the address of a label, counted from the lowest one. -/
  | ofAddress (label : Label) (index : Nat)
  | filler
  deriving DecidableEq, Repr

/-- A number in eight bytes, the lowest one first. -/
def numberBytes (n : Nat) : List UInt8 := (List.range 8).map fun i ↦ UInt8.ofNat (n / 256 ^ i)

/-- The bytes say what the number is, as long as it fits. -/
theorem numberBytes_value {n : Nat} (h : n < 2 ^ 64) :
    (numberBytes n).foldr (fun b m ↦ b.toNat + 256 * m) 0 = n := by
  have hbytes : ∀ k m : Nat, (List.range' m k).foldr
      (fun i a ↦ (UInt8.ofNat (n / 256 ^ i)).toNat + 256 * a) 0 = n / 256 ^ m % 256 ^ k := by
    intro k
    induction k with
    | zero => intro m; simp [Nat.mod_one]
    | succ k ih =>
      intro m
      have hrest : n / 256 ^ (m + 1) = n / 256 ^ m / 256 := by
        rw [Nat.pow_succ, Nat.div_div_eq_div_mul]
      rw [List.range'_succ, List.foldr_cons, ih, hrest, Nat.pow_succ' (n := k), Nat.mod_mul]
      rfl
  rw [numberBytes, List.foldr_map, List.range_eq_range', hbytes, Nat.pow_zero, Nat.div_one]
  exact Nat.mod_eq_of_lt h

/-- The address of a label in eight bytes. -/
def addressBytes (l : Label) : List SectionByte := (List.range 8).map (.ofAddress l)

/-- The bytes of a directive that stands at an offset. -/
def Directive.image (offset : Nat) : Directive → List SectionByte
  | label _ => []
  | number n => (numberBytes n).map .value
  | address l => addressBytes l
  | bytes bs => bs.map .value
  | align => List.replicate ((8 - offset % 8) % 8) .filler

/-- The bytes of directives that stand at an offset. -/
def image : (offset : Nat) → List Directive → List SectionByte
  | _, [] => []
  | o, d :: ds => d.image o ++ image (o + (d.image o).length) ds

/-- The labels that stand before directives, with their offsets. -/
def symbols : (offset : Nat) → List Directive → List (Label × Nat)
  | _, [] => []
  | o, d :: ds => d.defines.map (·, o) ++ symbols (o + (d.image o).length) ds

namespace Program

/-- The data section of a program, which starts aligned. -/
def sectionData (p : Program) : List Directive := .align :: p.directives

/-- The bytes of the data section. -/
def bytes (p : Program) : List SectionByte := image 0 p.sectionData

/-- The labels in the data section, with their offsets. -/
def symbols (p : Program) : List (Label × Nat) := Machine.symbols 0 p.sectionData

end Program

/-! ## Directives one after another -/

variable {o : Nat}

theorem image_append (o : Nat) (ds ds' : List Directive) :
    image o (ds ++ ds') = image o ds ++ image (o + (image o ds).length) ds' := by
  induction ds generalizing o with
  | nil => rfl
  | cons d ds ih =>
    rw [List.cons_append, image, image, ih, List.append_assoc, List.length_append, Nat.add_assoc]

theorem symbols_append (o : Nat) (ds ds' : List Directive) :
    symbols o (ds ++ ds') = symbols o ds ++ symbols (o + (image o ds).length) ds' := by
  induction ds generalizing o with
  | nil => rfl
  | cons d ds ih =>
    rw [List.cons_append, symbols, symbols, ih, List.append_assoc, image, List.length_append,
      Nat.add_assoc]

/-- The labels that have an offset are those that are defined. -/
theorem map_fst_symbols (o : Nat) (ds : List Directive) :
    (symbols o ds).map Prod.fst = ds.flatMap Directive.defines := by
  induction ds generalizing o with
  | nil => rfl
  | cons d ds ih =>
    rw [symbols, List.map_append, ih, List.map_map, List.flatMap_cons]
    exact congrArg (· ++ _) (List.map_id _)

/-! ## Data one after another -/

/-- The text of a string: its length in eight bytes, and its bytes. -/
def textBytes (s : String) : List SectionByte :=
  (numberBytes s.toUTF8.toList.length ++ s.toUTF8.toList).map .value

/-- What a piece of data stands for. -/
def Datum.content : Datum → List SectionByte
  | text _ s => textBytes s
  | closure _ code => addressBytes code

/-- A piece of data starts with what it stands for. Where it starts at a multiple of eight, it ends
at one. -/
theorem image_directives (d : Datum) (h : 8 ∣ o) :
    ∃ n, image o d.directives = d.content ++ List.replicate n .filler ∧
      8 ∣ (image o d.directives).length := by
  cases d with
  | closure l code =>
    refine ⟨0, by simp [image, Directive.image, Datum.directives, Datum.content], ?_⟩
    simp [image, Directive.image, Datum.directives, addressBytes]
  | text l s =>
    -- no directive is needed for no bytes
    have hvalues : ∀ k (bs : List UInt8),
        image k (if bs.isEmpty then [] else [.bytes bs]) = bs.map .value := by
      intro k bs
      cases bs <;> simp [image, Directive.image]
    have hnumber : ∀ n, image o [.label l, .number n] = (numberBytes n).map .value := by
      intro n
      simp [image, Directive.image]
    have himage : image o (Datum.text l s).directives = textBytes s
        ++ List.replicate ((8 - (o + (textBytes s).length) % 8) % 8) .filler := by
      rw [Datum.directives, image_append, image_append, hvalues, hnumber, ← List.map_append]
      exact congrArg (textBytes s ++ ·) (List.append_nil _)
    rw [himage]
    refine ⟨_, rfl, ?_⟩
    rw [List.length_append, List.length_replicate]
    omega

theorem symbols_directives (d : Datum) (o : Nat) : symbols o d.directives = [(d.label, o)] := by
  cases d with
  | closure l code => rfl
  | text l s =>
    rw [Datum.directives]
    split <;> rfl

theorem dvd_length_image (ds : List Datum) (h : 8 ∣ o) :
    8 ∣ (image o (ds.flatMap Datum.directives)).length := by
  induction ds generalizing o with
  | nil => exact Nat.dvd_zero 8
  | cons d ds ih =>
    obtain ⟨-, -, hd⟩ := image_directives d h
    rw [List.flatMap_cons, image_append, List.length_append]
    exact Nat.dvd_add hd (ih (Nat.dvd_add h hd))

namespace Program

variable {p : Program}

/-- The label stands in the data section once, at a multiple of eight, and is followed by the
content. -/
def Holds (p : Program) (l : Label) (content : List SectionByte) : Prop :=
  ∃ o, (∀ o', (l, o') ∈ p.symbols ↔ o' = o) ∧ 8 ∣ o ∧ content <+: p.bytes.drop o

theorem map_fst_symbols (p : Program) : p.symbols.map Prod.fst = p.data.map Datum.label := by
  rw [symbols, Machine.map_fst_symbols, sectionData, directives, List.flatMap_cons,
    List.flatMap_assoc]
  simp only [defines_directives, List.map_eq_flatMap]
  rfl

/-- Wherever a piece of data stands, its label is followed by what it stands for. -/
theorem holds_of_mem (h : (p.data.map Datum.label).Nodup) {d : Datum} (hd : d ∈ p.data) :
    p.Holds d.label d.content := by
  obtain ⟨before, after, hdata⟩ := List.append_of_mem hd
  have hsection : p.sectionData = .align :: before.flatMap Datum.directives
      ++ (d.directives ++ after.flatMap Datum.directives) := by
    rw [sectionData, directives, hdata, List.flatMap_append, List.flatMap_cons, List.cons_append]
  let front := image 0 (.align :: before.flatMap Datum.directives)
  have hdvd : 8 ∣ front.length := dvd_length_image before (Nat.dvd_zero 8)
  have hmem : (d.label, front.length) ∈ p.symbols := by
    rw [symbols, hsection, symbols_append, symbols_append, symbols_directives, Nat.zero_add]
    exact List.mem_append_right _ (List.mem_append_left _ List.mem_cons_self)
  refine ⟨front.length, fun o ↦ ⟨fun ho ↦ ?_, fun ho ↦ ho ▸ hmem⟩, hdvd, ?_⟩
  · rw [← map_fst_symbols] at h
    exact congrArg Prod.snd (List.inj_on_of_nodup_map h ho hmem rfl)
  · obtain ⟨n, himage, -⟩ := image_directives d (o := front.length) hdvd
    rw [bytes, hsection, image_append, image_append, Nat.zero_add, List.drop_left, himage,
      List.append_assoc]
    exact List.prefix_append _ _

end Program

end TaggedLisp.Machine
