import Hypertok.Format.Writer
import Hypertok.Load.Replay
import Hypertok.Pretokenize.Options

/-!
The cursor readers of the loader, which read the sections of a validated file again, without
checks of their own.

* `Laid.readSpecials`, `Laid.readPost`, `Laid.readPriorities`, `Laid.readByteBase` and the
  others: on a laid out file they do not panic.
* `read_total`: the reader and the readers after it, on any bytes.
-/

namespace Hypertok

open Machine Run

/-- A run of the loader. -/
abbrev Load := Run HtkLoadError

/-- `Special`. -/
structure Special where
  id : ℕ
  bytes : List UInt8
  flags : ℕ
  deriving DecidableEq

/-- What `configure_byte_pipeline` sets. -/
structure BytePipeline where
  pretokenizerType : PretokenizerType
  addPrefixSpace : Bool
  trimOffsets : Bool
  ignoreMerges : Bool
  normalizeNfc : Bool
  deriving DecidableEq

/-- `NormOp`. -/
inductive NormOp
  | nfc
  | prepend (content : List UInt8)
  | replace (pattern content : List UInt8)
  | strip (left right : Bool)
  | collapseSpaces (content : List UInt8)
  deriving DecidableEq

/-- `PrependScheme`, as far as the loader sets it. -/
inductive PrependScheme
  | always
  deriving DecidableEq

/-- `Metaspace`. -/
structure Metaspace where
  prepend : PrependScheme
  split : Bool
  deriving DecidableEq

section Code

variable (w : ℕ) (bytes : List UInt8)

/-- `read_byte_at`. -/
def readByteAt (cursor : ℕ) : Load (UInt8 × ℕ) := do
  let value ← Run.expect bytes[cursor]?
  return (value, ← Run.add w cursor 1)

/-- `read_u32_at`. -/
def readU32At (cursor : ℕ) : Load (ℕ × ℕ) := do
  let value ← readU32 (← Run.expect (getFrom bytes cursor))
  return (value, ← Run.add w cursor 4)

/-- `read_string_at`. -/
def readStringAt (cursor : ℕ) : Load (List UInt8 × ℕ) := do
  let (length, cursor) ← readU32At w bytes cursor
  let stop ← Run.add w cursor length
  let value ← Run.expect (getRange bytes cursor stop)
  Run.require (isUtf8 value = true) (.invalidModel "invalid UTF-8 pipeline string")
  return (value, stop)

/-- One entry of `read_specials`. -/
def readSpecial : ℕ × List Special → Load (ℕ × List Special)
  | (cursor, specials) => do
      let (id, cursor) ← readU32At w bytes cursor
      let (length, cursor) ← readU32At w bytes cursor
      let stop ← Run.add w cursor length
      let token ← Run.expect (getRange bytes cursor stop)
      let (flags, cursor) ← readU32At w bytes stop
      Run.require (flags &&& (2 ^ 32 - 1 - 0b1111) = 0) (.invalidModel "unknown special-token flags")
      return (cursor, specials ++ [⟨id, token, flags⟩])

/-- The position of an entry of POST; others are `unreachable!`. -/
def postPosition (value : UInt8) : Load PostPosition :=
  if value = PostPosition.prepend.value then return .prepend
  else if value = PostPosition.append.value then return .append
  else .stuck

/-- One entry of `read_post`. -/
def readPostEntry : ℕ × List (PostPosition × ℕ) → Load (ℕ × List (PostPosition × ℕ))
  | (cursor, entries) => do
      let (value, cursor) ← readByteAt w bytes cursor
      let position ← postPosition value
      let (id, cursor) ← readU32At w bytes cursor
      return (cursor, entries ++ [(position, id)])

/-- The state of the first loop of `configure_byte_pipeline`. -/
structure PretokState where
  pattern : Option ℕ
  addPrefixSpace : Bool
  trimOffsets : Bool

/-- One step of PRETOK in `configure_byte_pipeline`. -/
def configureStep : ℕ × PretokState → Load (ℕ × PretokState)
  | (cursor, st) => do
      let (kind, cursor) ← readByteAt w bytes cursor
      if kind = PretokStepKind.namedPattern.value then do
        let (pattern, cursor) ← readU32At w bytes cursor
        return (cursor, { st with pattern := some pattern })
      else if kind = PretokStepKind.byteLevel.value then do
        let (flags, cursor) ← readByteAt w bytes cursor
        return (cursor, { st with
          addPrefixSpace := flags &&& 1 ≠ 0
          trimOffsets := flags &&& 2 ≠ 0 })
      else .fail (.unsupported "byte-BPE pretokenizer")

/-- The scheme of a named pattern. -/
def pretokenizerScheme : Option ℕ → Load PretokenizerType
  | some 1 => return .o200k
  | some 2 => return .qwen35
  | some 3 => return .nemotron
  | some 4 => return .deepSeekV3
  | some 5 => return .kimi
  | some 6 => return .gpt2
  | some 7 => return .gpt4
  | some 8 => return .cohereCommand
  | _ => .fail (.unsupported "named split pattern")

/-- `count == 1 && read_byte_at(..) == kind`: the cursor after the kind, if it is the one. -/
def readSingle (kind : UInt8) (count cursor : ℕ) : Load (Option ℕ) :=
  if count = 1 then do
    let (value, cursor) ← readByteAt w bytes cursor
    return if value = kind then some cursor else none
  else return none

/-- The NORM section in `configure_byte_pipeline`. -/
def configureNorm : Load Bool := do
  let (count, cursor) ← readU32At w bytes 0
  match ← readSingle w bytes NormStepKind.nfc.value count cursor with
  | some _ => return true
  | none =>
      if count ≠ 0 then .fail (.unsupported "byte-BPE normalizer")
      else return false

/-- One step of NORM in `read_sentencepiece_pipeline`. -/
def readNormStep : ℕ × List NormOp → Load (ℕ × List NormOp)
  | (cursor, ops) => do
      let (kind, cursor) ← readByteAt w bytes cursor
      if kind = NormStepKind.nfc.value then return (cursor, ops ++ [.nfc])
      else if kind = NormStepKind.prepend.value then do
        let (content, cursor) ← readStringAt w bytes cursor
        return (cursor, ops ++ [.prepend content])
      else if kind = NormStepKind.replace.value then do
        let (pattern, cursor) ← readStringAt w bytes cursor
        let (content, cursor) ← readStringAt w bytes cursor
        return (cursor, ops ++ [.replace pattern content])
      else if kind = NormStepKind.stripWhitespace.value then
        return (cursor, ops ++ [.strip true true])
      else if kind = NormStepKind.collapseWhitespaceRuns.value then
        return (cursor, ops ++ [.collapseSpaces [32]])
      else .fail (.unsupported "sentencepiece normalizer")

/-- The PRETOK section in `read_sentencepiece_pipeline`. -/
def readMetaspace : Load (Option Metaspace) := do
  let (count, cursor) ← readU32At w bytes 0
  if count = 0 then return none
  else do
    match ← readSingle w bytes PretokStepKind.metaspace.value count cursor with
    | none => .fail (.unsupported "sentencepiece pretokenizer")
    | some cursor => do
        let (value, _) ← readU32At w bytes cursor
        let replacement ← Run.expect (if isScalar value then some value else none)
        Run.require (replacement = 0x2581) (.unsupported "metaspace replacement")
        return some ⟨.always, true⟩

/-- One step of DECODER in `validate_sentencepiece_decoder`; the replacement is that of a
U+2581 by a space. -/
def readDecoderStep : ℕ × List UInt8 → Load (ℕ × List UInt8)
  | (cursor, kinds) => do
      let (kind, cursor) ← readByteAt w bytes cursor
      let kinds := kinds ++ [kind]
      if kind = DecoderStepKind.replace.value then do
        let (pattern, cursor) ← readStringAt w bytes cursor
        let (content, cursor) ← readStringAt w bytes cursor
        Run.require (pattern = [0xE2, 0x96, 0x81] ∧ content = [32])
          (.unsupported "sentencepiece decoder replacement")
        return (cursor, kinds)
      else if kind = DecoderStepKind.strip.value then do
        let (scalar, cursor) ← readU32At w bytes cursor
        let (start, cursor) ← readU32At w bytes cursor
        let (stop, cursor) ← readU32At w bytes cursor
        Run.require (scalar = 32 ∧ start = 1 ∧ stop = 0) (.unsupported "sentencepiece decoder strip")
        return (cursor, kinds)
      else return (cursor, kinds)

/-- One step of PRETOK in `worker_transfer_pipeline_supported`; a result ends the loop. -/
def workerStep : ℕ × Option Bool → Load (ℕ × Option Bool)
  | (cursor, some result) => return (cursor, some result)
  | (cursor, none) => do
      let (kind, cursor) ← readByteAt w bytes cursor
      if kind = PretokStepKind.namedPattern.value then do
        let (_, cursor) ← readU32At w bytes cursor
        return (cursor, none)
      else if kind = PretokStepKind.byteLevel.value then do
        let (flags, cursor) ← readByteAt w bytes cursor
        return (cursor, if flags &&& 1 ≠ 0 then some false else none)
      else return (cursor, some false)

/-- A table of 256 ids, one for each byte. -/
def readByteTable : Load (List ℕ) :=
  (List.range 256).foldlM (fun ids index => do
    let b ← Run.expect (getRange bytes (index * 4) (index * 4 + 4))
    return ids ++ [← readU32 b]) []

/-- The varints of `read_priorities`, as many as the vocabulary has entries. -/
def readVarints : ℕ → List UInt8 → Load (List ℕ)
  | 0, _ => return []
  | count + 1, remaining => do
      let (value, consumed) ← Run.expect (decodeU32 remaining).toOption
      let remaining ← Run.expect (getFrom remaining consumed)
      let values ← readVarints count remaining
      return value :: values

end Code

namespace ValidatedFile

variable (w : ℕ) (file : ValidatedFile)

/-- A section that may be absent, with a value in its place. -/
def readOptional {α : Type} (s : SectionId) (absent : α) (read : List UInt8 → Load α) : Load α := do
  match ← file.bytesOf w s with
  | none => return absent
  | some bytes => read bytes

/-- `read_byte_base`. -/
def readByteBase : Load (List ℕ) := do readByteTable (← file.requiredBytes w .base)

/-- `read_byte_fallback`. -/
def readByteFallback : Load (List ℕ) := do readByteTable (← file.requiredBytes w .byteFall)

/-- `read_sentencepiece_base`, the entries of the map. -/
def readSentencePieceBase : Load (List (ℕ × ℕ)) := do
  let bytes ← file.requiredBytes w .base
  (chunksExact 8 (← Run.expect (getFrom bytes 4))).foldlM (fun entries entry => do
    let codepoint ← readU32 (← Run.expect (getRange entry 0 4))
    let id ← readU32 (← Run.expect (getFrom entry 4))
    return entries ++ [(codepoint, id)]) []

/-- `read_priorities`. -/
def readPriorities : Load (Option (List ℕ)) :=
  file.readOptional w .priority none fun bytes => do
    return some (← readVarints file.header.vocabSize bytes)

/-- `read_specials`, with its debug assertion. -/
def readSpecials : Load (List Special) := do
  let bytes ← file.requiredBytes w .specials
  let (count, cursor) ← readU32At w bytes 0
  let (cursor, specials) ← Run.iterate (readSpecial w bytes) count (cursor, [])
  let precedence ← if count * 4 < 2 ^ w then Run.ok (count * 4) else Run.stuck
  let cursor ← Run.add w cursor precedence
  if cursor = bytes.length then return specials else Run.stuck

/-- `read_post`. -/
def readPost : Load (List (PostPosition × ℕ)) :=
  file.readOptional w .post [] fun bytes => do
    let (count, cursor) ← readU32At w bytes 0
    let (_, entries) ← Run.iterate (readPostEntry w bytes) count (cursor, [])
    return entries

/-- `validate_empty_decoder`. -/
def validateEmptyDecoder : Load Unit :=
  file.readOptional w .decoder () fun bytes =>
    Run.require (bytes = leBytes 4 0) (.unsupported "byte-BPE decoder")

/-- `configure_byte_pipeline`. -/
def configureBytePipeline : Load BytePipeline := do
  let pretok ← file.requiredBytes w .pretok
  let (count, cursor) ← readU32At w pretok 0
  let (_, st) ← Run.iterate (configureStep w pretok) count (cursor, ⟨none, false, false⟩)
  let scheme ← pretokenizerScheme st.pattern
  let nfc ← file.readOptional w .norm false (configureNorm w)
  file.validateEmptyDecoder w
  return {
    pretokenizerType := scheme
    addPrefixSpace := st.addPrefixSpace
    trimOffsets := st.trimOffsets
    ignoreMerges := file.header.flags &&& byteBpeIgnoreMergesFlag ≠ 0
    normalizeNfc := nfc }

/-- `byte_normalizer_is_identity`. -/
def byteNormalizerIsIdentity : Load Bool :=
  file.readOptional w .norm true fun norm => do
    return (← readU32 (← Run.expect (getRange norm 0 4))) = 0

/-- `worker_transfer_pipeline_supported`. -/
def workerTransferPipelineSupported : Load Bool := do
  if file.header.flags &&& 1 ≠ 0 then return false
  else do
    let identity ← file.readOptional w .norm true fun norm => do
      let (count, _) ← readU32At w norm 0
      return count = 0
    if identity = false then return false
    else do
      let pretok ← file.requiredBytes w .pretok
      let (count, cursor) ← readU32At w pretok 0
      let (_, result) ← Run.iterate (workerStep w pretok) count (cursor, none)
      return result.getD true

/-- `read_sentencepiece_pipeline`. -/
def readSentencePiecePipeline : Load (List NormOp × Option Metaspace) := do
  let ops ← file.readOptional w .norm [] fun norm => do
    let (count, cursor) ← readU32At w norm 0
    let (_, ops) ← Run.iterate (readNormStep w norm) count (cursor, [])
    return ops
  let metaspace ← readMetaspace w (← file.requiredBytes w .pretok)
  return (ops, metaspace)

/-- `validate_sentencepiece_decoder`. -/
def validateSentencePieceDecoder (prependsSpace : Bool) : Load Unit := do
  let decoder ← Run.orFail (.invalidModel "sentencepiece decoder is absent")
    (← file.bytesOf w .decoder)
  let (count, cursor) ← readU32At w decoder 0
  let (_, kinds) ← Run.iterate (readDecoderStep w decoder) count (cursor, [])
  let expected := [DecoderStepKind.replace.value, DecoderStepKind.byteFallback.value,
    DecoderStepKind.fuse.value] ++ if prependsSpace then [DecoderStepKind.strip.value] else []
  Run.require (kinds = expected) (.unsupported "sentencepiece decoder sequence")

end ValidatedFile

/-! ### Steps that were validated -/

section Steps

variable {w : ℕ} {b : List UInt8} (hlen : b.length < 2 ^ w - 1)
include hlen

lemma readByteAt_returns {c : ℕ} (h : c + 1 ≤ b.length) :
    Returns (readByteAt w b c) fun r => b[c]? = some r.1 ∧ r.2 = c + 1 := by
  refine (expect_getElem_returns h).bind fun value hvalue => ?_
  exact .bind_add (by omega) ⟨hvalue, rfl⟩

lemma readU32At_returns {c : ℕ} (h : c + 4 ≤ b.length) :
    Returns (readU32At w b c) fun r => r.1 = u32At b c ∧ r.2 = c + 4 := by
  refine (expect_getFrom_returns (by omega)).bind fun rest hrest => ?_
  refine (readU32_returns (by rw [hrest, List.length_drop]; omega)).bind fun value hvalue => ?_
  refine .bind_add (by omega) ⟨?_, rfl⟩
  rw [hvalue, hrest]
  rfl

lemma readStringAt_returns {c d : ℕ} (h : OperandAt b .text c d) :
    Returns (readStringAt w b c) fun r => r.2 = d := by
  obtain ⟨rfl, hle, -⟩ := h
  refine (readU32At_returns hlen (by omega)).bind fun r hr => ?_
  obtain ⟨n, m⟩ := r
  obtain ⟨rfl, rfl⟩ := hr
  refine .bind_add (by omega) ?_
  refine (expect_getRange_returns (Nat.le_add_right _ _) hle).bind fun value _ => ?_
  exact .bind_require fun _ => rfl

/-- The kind of a step is read, and the operands follow. -/
lemma bind_readByteAt {operands : UInt8 → Option (List Operand)} {c d : ℕ}
    (h : StepAt operands b c d) {β : Type} {f : UInt8 × ℕ → Load β} {R : β → Prop}
    (hf : ∀ kind os, operands kind = some os → OperandsAt b os (c + 1) d →
      Returns (f (kind, c + 1)) R) :
    Returns (readByteAt w b c >>= f) R := by
  obtain ⟨kind, os, hkind, hop, hos⟩ := h
  obtain ⟨hlt, -⟩ := List.getElem?_eq_some_iff.mp hkind
  refine (readByteAt_returns hlen hlt).bind fun r hr => ?_
  obtain ⟨value, m⟩ := r
  obtain ⟨hvalue, rfl⟩ := hr
  obtain rfl := Option.some_inj.mp (hvalue.symm.trans hkind)
  exact hf value os hop hos

lemma readSpecial_returns {c d : ℕ} (specials : List Special)
    (h : OperandsAt b [.u32, .blob, .u32] c d) :
    Returns (readSpecial w b (c, specials)) fun r => r.1 = d := by
  obtain ⟨_, ⟨rfl, hid⟩, _, ⟨rfl, htoken⟩, _, ⟨rfl, hflags⟩, rfl⟩ := h
  refine (readU32At_returns hlen hid).bind fun r hr => ?_
  obtain ⟨id, m⟩ := r
  obtain ⟨-, rfl⟩ := hr
  refine (readU32At_returns hlen (by omega)).bind fun r hr => ?_
  obtain ⟨length, m⟩ := r
  obtain ⟨rfl, rfl⟩ := hr
  refine .bind_add (by omega) ?_
  refine (expect_getRange_returns (Nat.le_add_right _ _) htoken).bind fun token _ => ?_
  refine (readU32At_returns hlen hflags).bind fun r hr => ?_
  obtain ⟨flags, m⟩ := r
  obtain ⟨-, rfl⟩ := hr
  exact .bind_require fun _ => rfl

lemma readPostEntry_returns {c d : ℕ} (entries : List (PostPosition × ℕ))
    (h : StepAt postOperands b c d) :
    Returns (readPostEntry w b (c, entries)) fun r => r.1 = d := by
  refine bind_readByteAt hlen h fun kind os hop hos => ?_
  rw [postOperands, Option.ite_none_right_eq_some] at hop
  obtain ⟨hposition, hop⟩ := hop
  obtain rfl := Option.some_inj.mp hop
  obtain ⟨_, ⟨rfl, hle⟩, rfl⟩ := hos
  have hvalid : Returns (postPosition kind) fun _ => True := by
    rw [postPosition]
    split_ifs with hpre happ
    · trivial
    · trivial
    · exact absurd hposition (not_or.mpr ⟨hpre, happ⟩)
  refine hvalid.bind fun position _ => ?_
  refine (readU32At_returns hlen hle).bind fun r hr => ?_
  obtain ⟨id, m⟩ := r
  obtain ⟨-, rfl⟩ := hr
  rfl

lemma configureStep_returns {c d : ℕ} (st : PretokState) (h : StepAt pretokOperands b c d) :
    Returns (configureStep w b (c, st)) fun r => r.1 = d := by
  refine bind_readByteAt hlen h fun kind os hop hos => ?_
  dsimp only
  split_ifs with hnamed hlevel
  · rw [pretokOperands, if_pos hnamed] at hop
    obtain rfl := Option.some_inj.mp hop
    obtain ⟨_, ⟨rfl, hle⟩, rfl⟩ := hos
    refine (readU32At_returns hlen hle).bind fun r hr => ?_
    obtain ⟨pattern, m⟩ := r
    exact hr.2
  · rw [pretokOperands, if_neg hnamed, if_pos hlevel] at hop
    obtain rfl := Option.some_inj.mp hop
    obtain ⟨_, ⟨rfl, hle⟩, rfl⟩ := hos
    refine (readByteAt_returns hlen hle).bind fun r hr => ?_
    obtain ⟨flags, m⟩ := r
    exact hr.2
  · trivial

/-- The loop ends early, so only the cursors of the steps before matter. -/
lemma workerStep_returns {c d : ℕ} (st : Option Bool) (h : StepAt pretokOperands b c d) :
    Returns (workerStep w b (c, st)) fun r => r.2 = none → r.1 = d := by
  cases st with
  | some result =>
      intro hnone
      cases hnone
  | none =>
      refine bind_readByteAt hlen h fun kind os hop hos => ?_
      dsimp only
      split_ifs with hnamed hlevel
      · rw [pretokOperands, if_pos hnamed] at hop
        obtain rfl := Option.some_inj.mp hop
        obtain ⟨_, ⟨rfl, hle⟩, rfl⟩ := hos
        refine (readU32At_returns hlen hle).bind fun r hr => ?_
        obtain ⟨pattern, m⟩ := r
        exact fun _ => hr.2
      · rw [pretokOperands, if_neg hnamed, if_pos hlevel] at hop
        obtain rfl := Option.some_inj.mp hop
        obtain ⟨_, ⟨rfl, hle⟩, rfl⟩ := hos
        refine (readByteAt_returns hlen hle).bind fun r hr => ?_
        obtain ⟨flags, m⟩ := r
        exact fun _ => hr.2
      · intro hnone
        cases hnone

lemma readNormStep_returns {c d : ℕ} (ops : List NormOp) (h : StepAt normOperands b c d) :
    Returns (readNormStep w b (c, ops)) fun r => r.1 = d := by
  refine bind_readByteAt hlen h fun kind os hop hos => ?_
  dsimp only
  have hreplace' : NormStepKind.prepend.value ≠ NormStepKind.replace.value := by decide
  split_ifs with hnfc hprepend hreplace hstrip hcollapse
  · rw [normOperands, if_pos hnfc] at hop
    obtain rfl := Option.some_inj.mp hop
    exact hos.symm
  · rw [normOperands, if_neg hnfc, if_neg (hprepend ▸ hreplace'), if_pos hprepend] at hop
    obtain rfl := Option.some_inj.mp hop
    obtain ⟨m, hm, rfl⟩ := hos
    exact (readStringAt_returns hlen hm).bind fun r hr => hr
  · rw [normOperands, if_neg hnfc, if_pos hreplace] at hop
    obtain rfl := Option.some_inj.mp hop
    obtain ⟨m, hm, m', hm', rfl⟩ := hos
    refine (readStringAt_returns hlen hm).bind fun r hr => ?_
    obtain ⟨pattern, m⟩ := r
    obtain rfl : m = _ := hr
    exact (readStringAt_returns hlen hm').bind fun r hr => hr
  · rw [normOperands, if_neg hnfc, if_neg hreplace, if_neg hprepend, if_pos hstrip] at hop
    obtain rfl := Option.some_inj.mp hop
    exact hos.symm
  · rw [normOperands, if_neg hnfc, if_neg hreplace, if_neg hprepend, if_neg hstrip,
      if_pos hcollapse] at hop
    obtain rfl := Option.some_inj.mp hop
    exact hos.symm
  · trivial

lemma readDecoderStep_returns {c d : ℕ} (kinds : List UInt8) (h : StepAt decoderOperands b c d) :
    Returns (readDecoderStep w b (c, kinds)) fun r => r.1 = d := by
  refine bind_readByteAt hlen h fun kind os hop hos => ?_
  dsimp only
  split_ifs with hreplace hstrip
  · rw [decoderOperands, if_pos hreplace] at hop
    obtain rfl := Option.some_inj.mp hop
    obtain ⟨m, hm, m', hm', rfl⟩ := hos
    refine (readStringAt_returns hlen hm).bind fun r hr => ?_
    obtain ⟨pattern, m⟩ := r
    obtain rfl : m = _ := hr
    refine (readStringAt_returns hlen hm').bind fun r hr => ?_
    obtain ⟨content, m⟩ := r
    exact .bind_require fun _ => hr
  · have hfallback : DecoderStepKind.strip.value ≠ DecoderStepKind.byteFallback.value := by decide
    have hfuse : DecoderStepKind.strip.value ≠ DecoderStepKind.fuse.value := by decide
    rw [decoderOperands, if_neg hreplace, if_neg (hstrip ▸ hfallback), if_neg (hstrip ▸ hfuse),
      if_pos hstrip] at hop
    obtain rfl := Option.some_inj.mp hop
    obtain ⟨_, ⟨rfl, hle, -⟩, _, ⟨rfl, hle'⟩, _, ⟨rfl, hle''⟩, rfl⟩ := hos
    refine (readU32At_returns hlen hle).bind fun r hr => ?_
    obtain ⟨scalar, m⟩ := r
    obtain ⟨-, rfl⟩ := hr
    refine (readU32At_returns hlen hle').bind fun r hr => ?_
    obtain ⟨start, m⟩ := r
    obtain ⟨-, rfl⟩ := hr
    refine (readU32At_returns hlen hle'').bind fun r hr => ?_
    obtain ⟨stop, m⟩ := r
    exact .bind_require fun _ => hr.2
  · have hempty : os = [] := by
      rw [decoderOperands, if_neg hreplace] at hop
      split_ifs at hop <;> exact (Option.some_inj.mp hop).symm
    subst hempty
    exact hos.symm

end Steps

/-! ### Whole sections -/

section Sections

variable {w : ℕ} {b : List UInt8}

lemma readByteTable_returns (h : b.length = 256 * 4) : Returns (readByteTable b) fun _ => True := by
  refine (Returns.foldlM_forall (P := fun _ => True) (fun index hindex ids => ?_) []).mono
    fun _ _ => trivial
  rw [List.mem_range] at hindex
  refine (expect_getRange_returns (by omega) (by omega)).bind fun b' hb' => ?_
  exact (readU32_returns (by omega)).bind fun id _ => trivial

/-- The varints of a section, one by one. -/
lemma readVarints_returns {ls : List ℕ} {remaining r : List UInt8}
    (h : VarintsAt remaining ls r) : Returns (readVarints ls.length remaining) fun vs => vs = ls := by
  induction ls generalizing remaining with
  | nil => rfl
  | cons v ls ih =>
      obtain ⟨consumed, hdecode, hrest⟩ := h
      rw [List.length_cons, readVarints, hdecode]
      refine (expect_getFrom_returns (decodeU32_spec hdecode).2).bind fun remaining' h' => ?_
      rw [h']
      refine (ih hrest).bind fun vs hvs => ?_
      exact congrArg (v :: ·) hvs

/-- The steps of PRETOK that are read before the loop ends. -/
lemma iterate_workerStep_returns (hlen : b.length < 2 ^ w - 1) {n c d : ℕ}
    (h : Iter (StepAt pretokOperands b) n c d) :
    Returns (Run.iterate (workerStep w b) n (c, none)) fun _ => True := by
  have hdone : ∀ n c result, Returns (Run.iterate (workerStep w b) n (c, some result))
      fun _ => True := by
    intro n
    induction n with
    | zero => exact fun _ _ => trivial
    | succ n ih => exact fun c result => ih c result
  induction h with
  | zero c => trivial
  | @succ n c m d hstep _ ih =>
      refine (workerStep_returns hlen none hstep).bind fun r hr => ?_
      obtain ⟨m', st⟩ := r
      cases st with
      | none =>
          obtain rfl : m' = m := hr rfl
          exact ih
      | some result => exact hdone n m' result

/-- The count of a program, and then its steps. -/
lemma bind_program {operands : UInt8 → Option (List Operand)} (hlen : b.length < 2 ^ w - 1)
    (h : ProgramAt operands b) {β : Type} {f : ℕ × ℕ → Load β} {R : β → Prop}
    (hf : ∀ count, Iter (StepAt operands b) count 4 b.length → Returns (f (count, 4)) R) :
    Returns (readU32At w b 0 >>= f) R := by
  obtain ⟨hle, hiter⟩ := h
  refine (readU32At_returns hlen hle).bind fun r hr => ?_
  obtain ⟨count, m⟩ := r
  obtain ⟨rfl, rfl⟩ := hr
  exact hf _ hiter

/-- A program of one step, whose kind is read for sure. -/
lemma readSingle_returns {operands : UInt8 → Option (List Operand)} (hlen : b.length < 2 ^ w - 1)
    (kind : UInt8) {count : ℕ} (h : Iter (StepAt operands b) count 4 b.length) :
    Returns (readSingle w b kind count 4) fun r => ∀ cursor, r = some cursor →
      cursor = 5 ∧ ∃ os, operands kind = some os ∧ OperandsAt b os 5 b.length := by
  rw [readSingle]
  split_ifs with hone
  · subst hone
    cases h with
    | succ hstep hzero =>
        cases hzero
        refine bind_readByteAt hlen hstep fun value os hop hos => ?_
        intro cursor hcursor
        obtain ⟨rfl, hsome⟩ := Option.ite_none_right_eq_some.mp hcursor
        obtain rfl := Option.some_inj.mp hsome
        exact ⟨rfl, os, hop, hos⟩
  · exact nofun

lemma configureNorm_returns (hlen : b.length < 2 ^ w - 1) (h : ProgramAt normOperands b) :
    Returns (configureNorm w b) fun _ => True := by
  refine bind_program hlen h fun count hiter => ?_
  refine (readSingle_returns hlen _ hiter).bind fun r _ => ?_
  cases r with
  | some _ => trivial
  | none =>
      dsimp only
      split_ifs <;> trivial

lemma readMetaspace_returns (hlen : b.length < 2 ^ w - 1) (h : ProgramAt pretokOperands b) :
    Returns (readMetaspace w b) fun _ => True := by
  refine bind_program hlen h fun count hiter => ?_
  dsimp only
  split_ifs
  · trivial
  · refine (readSingle_returns hlen _ hiter).bind fun r hr => ?_
    cases r with
    | none => trivial
    | some cursor =>
        obtain ⟨rfl, os, hop, hos⟩ := hr cursor rfl
        obtain rfl := Option.some_inj.mp hop
        obtain ⟨_, ⟨rfl, hle, hscalar⟩, -⟩ := hos
        refine (readU32At_returns hlen hle).bind fun r hr => ?_
        obtain ⟨value, m⟩ := r
        obtain ⟨rfl, -⟩ := hr
        rw [if_pos hscalar, expect_some, Run.ok_bind]
        exact .bind_require fun _ => trivial

lemma pretokenizerScheme_returns (pattern : Option ℕ) :
    Returns (pretokenizerScheme pattern) fun _ => True := by
  rw [pretokenizerScheme.eq_def]
  split <;> trivial

end Sections

/-! ### Validated files -/

namespace ValidatedFile

variable {w : ℕ} {file : ValidatedFile} (h : file.Laid) (hlen : file.bytes.length < 2 ^ w - 1)
include h hlen

lemma readOptional_returns {α : Type} (s : SectionId) (absent : α) {read : List UInt8 → Load α}
    (hread : ∀ b ∈ file.sectionOf s, b.length < 2 ^ w - 1 → Returns (read b) fun _ => True) :
    Returns (file.readOptional w s absent read) fun _ => True := by
  rw [readOptional, bytesOf_eq h.toBounded hlen, Run.ok_bind]
  cases hb : file.sectionOf s with
  | none => trivial
  | some b => exact hread b hb ((length_of_sectionOf hb).trans_lt hlen)

lemma bind_requiredBytes {s : SectionId} (hs : s ∈ SectionId.universalRequired) {ε β : Type}
    {f : List UInt8 → Run ε β} {R : β → Prop}
    (hf : ∀ b ∈ file.sectionOf s, b.length < 2 ^ w - 1 → Returns (f b) R) :
    Returns (file.requiredBytes w s >>= f) R :=
  (requiredBytes_returns h.toBounded hlen hs).bind fun b hb =>
    hf b hb ((length_of_sectionOf hb).trans_lt hlen)

lemma Laid.readByteBase (hclass : file.header.structuralClass = .byteBpe) :
    Returns (file.readByteBase w) fun _ => True :=
  bind_requiredBytes h hlen (by decide) fun b hb _ => readByteTable_returns (h.byteBase b hb hclass)

lemma Laid.readByteFallback (hclass : file.header.structuralClass = .sentencePieceBpe) :
    Returns (file.readByteFallback w) fun _ => True := by
  obtain ⟨b, hb⟩ := Option.isSome_iff_exists.mp (h.fallback hclass)
  rw [ValidatedFile.readByteFallback, requiredBytes, bytesOf_eq h.toBounded hlen, Run.ok_bind, hb]
  exact readByteTable_returns (h.byteFall b hb)

lemma Laid.readSentencePieceBase (hclass : file.header.structuralClass = .sentencePieceBpe) :
    Returns (file.readSentencePieceBase w) fun _ => True := by
  refine bind_requiredBytes h hlen (by decide) fun b hb _ => ?_
  refine (expect_getFrom_returns (h.pieceBase b hb hclass)).bind fun entries _ => ?_
  refine (Returns.foldlM_forall (P := fun _ => True) (fun entry hentry ids => ?_) []).mono
    fun _ _ => trivial
  have hsize := length_of_mem_chunksExact hentry
  refine (expect_getRange_returns (by decide) (by omega)).bind fun b₁ hb₁ => ?_
  refine (readU32_returns hb₁.ge).bind fun codepoint _ => ?_
  refine (expect_getFrom_returns (by omega)).bind fun b₂ hb₂ => ?_
  exact (readU32_returns (by rw [hb₂, List.length_drop]; omega)).bind fun id _ => trivial

lemma Laid.readPriorities : Returns (file.readPriorities w) fun _ => True := by
  refine readOptional_returns h hlen .priority none fun b hb _ => ?_
  obtain ⟨ls, hls, hcount⟩ := h.priority b hb
  rw [← hcount]
  exact (readVarints_returns hls).bind fun _ _ => trivial

lemma Laid.readSpecials : Returns (file.readSpecials w) fun _ => True := by
  refine bind_requiredBytes h hlen (by decide) fun b hb hblen => ?_
  obtain ⟨hle, stop, hiter, hstop⟩ := h.specials b hb
  refine (readU32At_returns hblen hle).bind fun r hr => ?_
  obtain ⟨count, m⟩ := r
  obtain ⟨rfl, rfl⟩ := hr
  refine (Returns.of_iter hiter (fun c d specials hstep => readSpecial_returns hblen specials hstep)
    []).bind fun r hr => ?_
  obtain ⟨cursor, specials⟩ := r
  obtain rfl : cursor = stop := hr
  dsimp only
  rw [if_pos (by omega), Run.ok_bind]
  refine .bind_add (by omega) ?_
  rw [if_pos hstop]
  trivial

lemma Laid.readPost : Returns (file.readPost w) fun _ => True := by
  refine readOptional_returns h hlen .post [] fun b hb hblen => ?_
  refine bind_program hblen (h.post b hb) fun count hiter => ?_
  exact (Returns.of_iter hiter (fun c d entries hstep => readPostEntry_returns hblen entries hstep)
    []).bind fun _ _ => trivial

lemma Laid.validateEmptyDecoder : Returns (file.validateEmptyDecoder w) fun _ => True :=
  readOptional_returns h hlen .decoder () fun _ _ _ => .require fun _ => trivial

lemma Laid.configureBytePipeline : Returns (file.configureBytePipeline w) fun _ => True := by
  refine bind_requiredBytes h hlen (by decide) fun b hb hblen => ?_
  refine bind_program hblen (h.pretok b hb) fun count hiter => ?_
  refine (Returns.of_iter hiter (fun c d st hstep => configureStep_returns hblen st hstep) _).bind
    fun r _ => ?_
  refine (pretokenizerScheme_returns r.2.pattern).bind fun scheme _ => ?_
  refine (readOptional_returns h hlen .norm false fun norm hnorm hnlen =>
    configureNorm_returns hnlen (h.norm norm hnorm)).bind fun nfc _ => ?_
  exact (Laid.validateEmptyDecoder h hlen).bind fun _ _ => trivial

lemma Laid.byteNormalizerIsIdentity :
    Returns (file.byteNormalizerIsIdentity w) fun _ => True := by
  refine readOptional_returns h hlen .norm true fun b hb _ => ?_
  refine (expect_getRange_returns (by decide) (h.norm b hb).1).bind fun b' hb' => ?_
  exact (readU32_returns hb'.ge).bind fun _ _ => trivial

lemma Laid.workerTransferPipelineSupported :
    Returns (file.workerTransferPipelineSupported w) fun _ => True := by
  rw [ValidatedFile.workerTransferPipelineSupported]
  split_ifs with hflags
  · trivial
  · refine (readOptional_returns h hlen .norm true fun norm hnorm hnlen => ?_).bind fun identity _ => ?_
    · exact (readU32At_returns hnlen (h.norm norm hnorm).1).bind fun _ _ => trivial
    split_ifs
    · trivial
    · refine bind_requiredBytes h hlen (by decide) fun b hb hblen => ?_
      refine bind_program hblen (h.pretok b hb) fun count hiter => ?_
      exact (iterate_workerStep_returns hblen hiter).bind fun _ _ => trivial

lemma Laid.readSentencePiecePipeline :
    Returns (file.readSentencePiecePipeline w) fun _ => True := by
  refine (readOptional_returns h hlen .norm [] fun b hb hblen => ?_).bind fun ops _ => ?_
  · refine bind_program hblen (h.norm b hb) fun count hiter => ?_
    exact (Returns.of_iter hiter (fun c d ops hstep => readNormStep_returns hblen ops hstep) []).bind
      fun _ _ => trivial
  · refine bind_requiredBytes h hlen (by decide) fun b hb hblen => ?_
    exact (readMetaspace_returns hblen (h.pretok b hb)).bind fun _ _ => trivial

lemma Laid.validateSentencePieceDecoder (prependsSpace : Bool) :
    Returns (file.validateSentencePieceDecoder w prependsSpace) fun _ => True := by
  rw [ValidatedFile.validateSentencePieceDecoder, bytesOf_eq h.toBounded hlen, Run.ok_bind]
  refine .bind_orFail fun b hb => ?_
  have hblen := (length_of_sectionOf hb).trans_lt hlen
  refine bind_program hblen (h.decoder b hb) fun count hiter => ?_
  exact (Returns.of_iter hiter (fun c d kinds hstep => readDecoderStep_returns hblen kinds hstep)
    []).bind fun _ _ => .require fun _ => trivial

omit h hlen in
/-- The reader on any bytes, fewer than an index can count. It does not panic; on a file that it
accepts, the tokens cut the arena into as many slices as the vocabulary has entries, and the
readers of the loader do not panic either. -/
theorem read_total (w : ℕ) (sha256 : List UInt8 → List UInt8) (bytes : List UInt8)
    (hlen : bytes.length < 2 ^ w - 1) :
    read w sha256 bytes ≠ stuck ∧ ∀ file, read w sha256 bytes = ok file →
      (∃ arena toks, file.bytesOf w .arena = (ok (some arena) : Read _) ∧ file.tokens w = ok toks ∧
        toks.map Prod.fst = List.range file.header.vocabSize ∧
          (toks.map Prod.snd).flatten = arena ∧
            (toks.map fun token => token.2.length).foldl max 0 = file.header.omega) ∧
      file.readSpecials w ≠ stuck ∧ file.readPost w ≠ stuck ∧ file.readPriorities w ≠ stuck ∧
      (file.header.structuralClass = .byteBpe → file.readByteBase w ≠ stuck) ∧
      (file.header.structuralClass = .sentencePieceBpe →
        file.readSentencePieceBase w ≠ stuck ∧ file.readByteFallback w ≠ stuck) ∧
      file.configureBytePipeline w ≠ stuck ∧ file.byteNormalizerIsIdentity w ≠ stuck ∧
      file.workerTransferPipelineSupported w ≠ stuck ∧ file.readSentencePiecePipeline w ≠ stuck ∧
      ∀ prependsSpace, file.validateSentencePieceDecoder w prependsSpace ≠ stuck := by
  have hread := read_returns (w := w) sha256 hlen
  refine ⟨hread.ne_stuck, fun file hfile => ?_⟩
  obtain ⟨h, rfl⟩ := hread.of_eq hfile
  obtain ⟨arena, toks, harena, htoks⟩ := h.tokens_eq hlen
  refine ⟨⟨arena, toks, by rw [bytesOf_eq h.toBounded hlen, harena], htoks⟩,
    (Laid.readSpecials h hlen).ne_stuck, (Laid.readPost h hlen).ne_stuck,
    (Laid.readPriorities h hlen).ne_stuck, fun hclass => (Laid.readByteBase h hlen hclass).ne_stuck,
    fun hclass => ⟨(Laid.readSentencePieceBase h hlen hclass).ne_stuck,
      (Laid.readByteFallback h hlen hclass).ne_stuck⟩,
    (Laid.configureBytePipeline h hlen).ne_stuck, (Laid.byteNormalizerIsIdentity h hlen).ne_stuck,
    (Laid.workerTransferPipelineSupported h hlen).ne_stuck,
    (Laid.readSentencePiecePipeline h hlen).ne_stuck,
    fun prependsSpace => (Laid.validateSentencePieceDecoder h hlen prependsSpace).ne_stuck⟩

omit h hlen in
theorem read_total_byteDocument : ∃ bytes file toks,
    read 64 (fun _ => List.replicate 32 0) bytes = ok file ∧ file.tokens 64 = ok toks ∧
      toks.map Prod.fst = List.range 256 ∧ file.readSpecials 64 ≠ stuck ∧
      file.readByteBase 64 ≠ stuck ∧ file.configureBytePipeline 64 ≠ stuck := by
  obtain ⟨bytes, hwrite, hlen⟩ := write_byteDocument
  obtain ⟨digest, entries, file, hwritten, hread⟩ := write_eq_ok hwrite
  have hbound : bytes.length < 2 ^ 64 - 1 := hlen ▸ of_decide_eq_true rfl
  obtain ⟨-, hfile⟩ := read_total 64 (fun _ => List.replicate 32 0) bytes hbound
  obtain ⟨⟨-, toks, -, htoks, hids, -⟩, hspecials, -, -, hbase, -, hpipeline, -⟩ := hfile file hread
  have hheader := congrArg ValidatedFile.header (hwritten.readBounded_eq (readBounded_of_read hread))
  have hvocab : file.header.vocabSize = 256 := by
    rw [hheader]
    rfl
  have hclass : file.header.structuralClass = .byteBpe := by
    rw [hheader]
    rfl
  rw [hvocab] at hids
  exact ⟨bytes, file, toks, hread, htoks, hids, hspecials, hbase hclass, hpipeline⟩

end ValidatedFile

end Hypertok
