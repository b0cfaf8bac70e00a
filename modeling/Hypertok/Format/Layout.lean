import Hypertok.Format.Reader

/-!
The layout of the sections that hold lists of steps: every step is a kind and operands, whose
lengths are known once they are read.

* `OperandAt`, `OperandsAt`: an operand, or several, between two cursors.
* `ProgramAt`: a section that consists of a count and as many steps.
* `validateProgram_returns`: a validated program has this layout.
* `VarintsAt`: a section that consists of varints.
-/

namespace Hypertok

open Machine Run

/-- The parts of an entry. -/
inductive Operand
  | byte
  | u32
  /-- An `u32` that is a Unicode scalar. -/
  | scalar
  /-- Bytes after their length. -/
  | blob
  /-- UTF-8 after its length. -/
  | text

/-- The `u32` at a cursor. -/
def u32At (bytes : List UInt8) (cursor : ℕ) : ℕ := leNat ((bytes.drop cursor).take 4)

/-- The operand starts at one cursor and ends at the other. -/
def OperandAt (bytes : List UInt8) : Operand → ℕ → ℕ → Prop
  | .byte, c, d => d = c + 1 ∧ d ≤ bytes.length
  | .u32, c, d => d = c + 4 ∧ d ≤ bytes.length
  | .scalar, c, d => d = c + 4 ∧ d ≤ bytes.length ∧ isScalar (u32At bytes c) = true
  | .blob, c, d => d = c + 4 + u32At bytes c ∧ d ≤ bytes.length
  | .text, c, d => d = c + 4 + u32At bytes c ∧ d ≤ bytes.length ∧
      isUtf8 ((bytes.drop (c + 4)).take (u32At bytes c)) = true

/-- The operands of a list, one after the other. -/
def OperandsAt (bytes : List UInt8) : List Operand → ℕ → ℕ → Prop
  | [], c, d => d = c
  | o :: os, c, d => ∃ m, OperandAt bytes o c m ∧ OperandsAt bytes os m d

/-- A step: its kind, and the operands of this kind. -/
def StepAt (operands : UInt8 → Option (List Operand)) (bytes : List UInt8) (c d : ℕ) : Prop :=
  ∃ kind os, bytes[c]? = some kind ∧ operands kind = some os ∧ OperandsAt bytes os (c + 1) d

/-- A count, and as many steps, up to the end. -/
def ProgramAt (operands : UInt8 → Option (List Operand)) (bytes : List UInt8) : Prop :=
  4 ≤ bytes.length ∧ Iter (StepAt operands bytes) (u32At bytes 0) 4 bytes.length

/-- Varints, up to the end. -/
def VarintsAt : List UInt8 → List ℕ → List UInt8 → Prop
  | bytes, [], rest => rest = bytes
  | bytes, v :: vs, rest => ∃ consumed, decodeU32 bytes = .ok (v, consumed) ∧
      VarintsAt (bytes.drop consumed) vs rest

/-- The operands of the steps in PRETOK. -/
def pretokOperands (kind : UInt8) : Option (List Operand) :=
  if kind = PretokStepKind.namedPattern.value then some [.u32]
  else if kind = PretokStepKind.byteLevel.value then some [.byte]
  else if kind = PretokStepKind.metaspace.value then some [.scalar]
  else if kind = PretokStepKind.identity.value then some []
  else none

/-- The operands of the steps in NORM. -/
def normOperands (kind : UInt8) : Option (List Operand) :=
  if kind = NormStepKind.nfc.value then some []
  else if kind = NormStepKind.replace.value then some [.text, .text]
  else if kind = NormStepKind.prepend.value then some [.text]
  else if kind = NormStepKind.stripWhitespace.value then some []
  else if kind = NormStepKind.collapseWhitespaceRuns.value then some []
  else none

/-- The operands of the steps in DECODER. -/
def decoderOperands (kind : UInt8) : Option (List Operand) :=
  if kind = DecoderStepKind.replace.value then some [.text, .text]
  else if kind = DecoderStepKind.byteFallback.value then some []
  else if kind = DecoderStepKind.fuse.value then some []
  else if kind = DecoderStepKind.strip.value then some [.scalar, .u32, .u32]
  else none

/-- The operands of the entries in POST. -/
def postOperands (position : UInt8) : Option (List Operand) :=
  if position = PostPosition.prepend.value ∨ position = PostPosition.append.value then some [.u32]
  else none

/-! ### Cursors -/

section Cursors

variable {w : ℕ} {bytes b : List UInt8} {s : SectionId} {c d n : ℕ}

lemma u32At_of_getRange (h : getRange bytes c (c + 4) = some b) : leNat b = u32At bytes c := by
  obtain ⟨-, rfl⟩ := getRange_eq_some.mp h
  rw [u32At, ← List.take_drop]

lemma readU32_of_length {ε : Type} (h : b.length = 4) : (readU32 b : Run ε ℕ) = ok (leNat b) := by
  have hrange : getRange b 0 4 = some b := by
    rw [getRange_of_le (Nat.zero_le 4) h.ge, List.drop_zero, List.take_of_length_le h.le]
  simp only [readU32, hrange, expect_some, Run.ok_bind, pure_eq]

/-- A range with a saturated end is an ordinary one. -/
lemma getRange_satAdd (hlen : bytes.length < 2 ^ w - 1) (h : getRange bytes c (Uint.satAdd w c n) = some b) :
    c + n ≤ bytes.length ∧ getRange bytes c (c + n) = some b := by
  obtain ⟨⟨-, hle⟩, -⟩ := getRange_eq_some.mp h
  have hsum : Uint.satAdd w c n = c + n := by
    rw [Uint.satAdd] at hle ⊢
    omega
  rw [hsum] at h hle
  exact ⟨hle, h⟩

variable (hlen : bytes.length < 2 ^ w - 1)
include hlen

lemma add_returns (h : c + n ≤ bytes.length) {Q : ℕ → Prop} (hQ : Q (c + n)) :
    Returns (Run.add w c n : Read ℕ) Q := .add (by omega) hQ

lemma readByte_returns (c : ℕ) : Returns (readByte w bytes s c) fun r =>
    bytes[c]? = some r.1 ∧ r.2 = c + 1 ∧ c + 1 ≤ bytes.length := by
  refine .bind_orFail fun value hvalue => ?_
  obtain ⟨hlt, -⟩ := List.getElem?_eq_some_iff.mp hvalue
  exact (add_returns hlen hlt (Q := fun d => d = c + 1) rfl).bind fun d hd => ⟨hvalue, hd, hlt⟩

lemma readU32Cursor_returns (c : ℕ) : Returns (readU32Cursor w bytes s c) fun r =>
    r.1 = u32At bytes c ∧ r.2 = c + 4 ∧ c + 4 ≤ bytes.length := by
  refine .bind_orFail fun b hb => ?_
  obtain ⟨hle, hb⟩ := getRange_satAdd hlen hb
  refine (add_returns hlen hle (Q := fun d => d = c + 4) rfl).bind fun d hd => ?_
  rw [readU32_of_length (by rw [length_of_getRange hb]; omega), u32At_of_getRange hb]
  exact ⟨rfl, hd, hle⟩

lemma readUtf8_returns (c : ℕ) :
    Returns (readUtf8 w bytes s c) (OperandAt bytes .text c) := by
  refine (readU32Cursor_returns hlen c).bind fun r hr => ?_
  obtain ⟨n, m⟩ := r
  obtain ⟨rfl, rfl, -⟩ := hr
  refine .bind_orFail fun b hb => ?_
  obtain ⟨hle, hb⟩ := getRange_satAdd hlen hb
  refine (add_returns hlen hle (Q := fun d => d = c + 4 + u32At bytes c) rfl).bind fun d hd => ?_
  refine .bind_require fun hutf8 => ?_
  obtain ⟨-, rfl⟩ := getRange_eq_some.mp hb
  rw [← List.take_drop] at hutf8
  exact ⟨hd, hd ▸ hle, hutf8⟩

end Cursors

/-! ### Steps -/

section Steps

variable {w : ℕ} {bytes : List UInt8} {s : SectionId} {operands : UInt8 → Option (List Operand)}

lemma StepAt.lt {c d : ℕ} (h : StepAt operands bytes c d) : c < d := by
  obtain ⟨kind, os, -, -, hos⟩ := h
  have hle : ∀ os c d, OperandsAt bytes os c d → c ≤ d := by
    intro os
    induction os with
    | nil => rintro c d rfl; exact le_rfl
    | cons o os ih =>
        rintro c d ⟨m, ho, hos⟩
        have hm : c ≤ m := by
          cases o <;> (obtain ⟨rfl, -⟩ := ho; omega)
        exact hm.trans (ih m d hos)
  exact hle os (c + 1) d hos

variable (hlen : bytes.length < 2 ^ w - 1)
include hlen

lemma validatePretokStep_returns (c : ℕ) :
    Returns (validatePretokStep w bytes c) (StepAt pretokOperands bytes c) := by
  refine (readByte_returns hlen c).bind fun r hr => ?_
  obtain ⟨kind, m⟩ := r
  obtain ⟨hkind, rfl, hle⟩ := hr
  dsimp only
  split_ifs with hnamed hlevel hmeta hident
  · refine .bind_orFail fun b hb => ?_
    have hb := getRange_satAdd hlen hb
    rw [readU32_of_length (by rw [length_of_getRange hb.2]; omega), Run.ok_bind]
    refine .bind (Q := fun _ => True) ?_ fun _ _ => ?_
    · rw [NamedPattern.tryFrom.eq_def]
      split <;> trivial
    · refine add_returns hlen hb.1 ⟨kind, [.u32], hkind, ?_, c + 1 + 4, ⟨rfl, hb.1⟩, rfl⟩
      rw [pretokOperands, if_pos hnamed]
  · refine .bind_orFail fun flags hflags => ?_
    obtain ⟨hlt, -⟩ := List.getElem?_eq_some_iff.mp hflags
    refine .bind_require fun _ => ?_
    refine add_returns hlen hlt ⟨kind, [.byte], hkind, ?_, c + 1 + 1, ⟨rfl, hlt⟩, rfl⟩
    rw [pretokOperands, if_neg hnamed, if_pos hlevel]
  · refine .bind_orFail fun b hb => ?_
    have hb := getRange_satAdd hlen hb
    rw [readU32_of_length (by rw [length_of_getRange hb.2]; omega), Run.ok_bind,
      u32At_of_getRange hb.2]
    refine .bind_require fun hscalar => ?_
    refine add_returns hlen hb.1 ⟨kind, [.scalar], hkind, ?_, c + 1 + 4, ⟨rfl, hb.1, hscalar⟩, rfl⟩
    rw [pretokOperands, if_neg hnamed, if_neg hlevel, if_pos hmeta]
  · refine ⟨kind, [], hkind, ?_, rfl⟩
    rw [pretokOperands, if_neg hnamed, if_neg hlevel, if_neg hmeta, if_pos hident]
  · trivial

lemma validateNormStep_returns (c : ℕ) :
    Returns (validateNormStep w bytes c) (StepAt normOperands bytes c) := by
  refine (readByte_returns hlen c).bind fun r hr => ?_
  obtain ⟨kind, m⟩ := r
  obtain ⟨hkind, rfl, -⟩ := hr
  dsimp only
  split_ifs with hnfc hreplace hprepend hstrip hcollapse
  · exact ⟨kind, [], hkind, by rw [normOperands, if_pos hnfc], rfl⟩
  · refine (readUtf8_returns hlen (c + 1)).bind fun m hm => ?_
    refine (readUtf8_returns hlen m).mono fun d hd => ?_
    exact ⟨kind, [.text, .text], hkind, by rw [normOperands, if_neg hnfc, if_pos hreplace], m, hm, d,
      hd, rfl⟩
  · refine (readUtf8_returns hlen (c + 1)).mono fun d hd => ?_
    exact ⟨kind, [.text], hkind, by rw [normOperands, if_neg hnfc, if_neg hreplace, if_pos hprepend],
      d, hd, rfl⟩
  · refine ⟨kind, [], hkind, ?_, rfl⟩
    rw [normOperands, if_neg hnfc, if_neg hreplace, if_neg hprepend, if_pos hstrip]
  · refine ⟨kind, [], hkind, ?_, rfl⟩
    rw [normOperands, if_neg hnfc, if_neg hreplace, if_neg hprepend, if_neg hstrip, if_pos hcollapse]
  · trivial

lemma validateDecoderStep_returns (c : ℕ) :
    Returns (validateDecoderStep w bytes c) (StepAt decoderOperands bytes c) := by
  refine (readByte_returns hlen c).bind fun r hr => ?_
  obtain ⟨kind, m⟩ := r
  obtain ⟨hkind, rfl, -⟩ := hr
  dsimp only
  split_ifs with hreplace hfallback hfuse hstrip
  · refine (readUtf8_returns hlen (c + 1)).bind fun m hm => ?_
    refine (readUtf8_returns hlen m).mono fun d hd => ?_
    exact ⟨kind, [.text, .text], hkind, by rw [decoderOperands, if_pos hreplace], m, hm, d, hd, rfl⟩
  · exact ⟨kind, [], hkind, by rw [decoderOperands, if_neg hreplace, if_pos hfallback], rfl⟩
  · refine ⟨kind, [], hkind, ?_, rfl⟩
    rw [decoderOperands, if_neg hreplace, if_neg hfallback, if_pos hfuse]
  · refine (readU32Cursor_returns hlen (c + 1)).bind fun r hr => ?_
    obtain ⟨scalar, m⟩ := r
    obtain ⟨rfl, rfl, hle⟩ := hr
    refine .bind_require fun hscalar => ?_
    refine (readU32Cursor_returns hlen (c + 1 + 4)).bind fun r hr => ?_
    obtain ⟨start, m⟩ := r
    obtain ⟨-, rfl, hle'⟩ := hr
    refine (readU32Cursor_returns hlen (c + 1 + 4 + 4)).bind fun r hr => ?_
    obtain ⟨stop, m⟩ := r
    obtain ⟨-, rfl, hle''⟩ := hr
    refine ⟨kind, [.scalar, .u32, .u32], hkind, ?_, c + 1 + 4, ⟨rfl, hle, hscalar⟩, c + 1 + 4 + 4,
      ⟨rfl, hle'⟩, c + 1 + 4 + 4 + 4, ⟨rfl, hle''⟩, rfl⟩
    rw [decoderOperands, if_neg hreplace, if_neg hfallback, if_neg hfuse, if_pos hstrip]
  · trivial

omit hlen in
/-- A validated program has the layout of its steps. -/
theorem validateProgram_returns {step : ℕ → Read ℕ}
    (hstep : ∀ c, Returns (step c) (StepAt operands bytes c)) :
    Returns (validateProgram bytes s step) fun _ => ProgramAt operands bytes := by
  refine .bind (.bind_orFail fun b hb => ?_) (Q := fun n => 4 ≤ bytes.length ∧ n = u32At bytes 0)
    fun n hn => ?_
  · rw [readU32_of_length (length_of_getRange hb), Run.ok_bind, u32At_of_getRange hb]
    refine .bind_require fun _ => ⟨?_, rfl⟩
    exact (getRange_eq_some.mp hb).1.2
  · obtain ⟨hle, rfl⟩ := hn
    refine .bind (.iterate (I := fun _ => True) (fun _ _ _ _ => trivial) (fun c _ => hstep c) _
      trivial) fun d hd => ?_
    refine .require fun hend => ⟨hle, ?_⟩
    rw [← hend]
    exact hd

end Steps

end Hypertok
