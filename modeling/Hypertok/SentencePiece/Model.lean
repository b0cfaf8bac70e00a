import Hypertok.Bpe.MergeRanked
import Hypertok.Machine.Utf8
import Mathlib.Data.List.DropRight

/-!
The data of `sentencepiece.rs`, the configuration that `finalize_speed_paths` computes from them,
and the normalizer. A text is a list of characters.

* `SentencePieceModel`: what the loaders assemble.
* `unitCrossingPieces`, `adjacent`: the tables of the unit scanner.
* `finalizeSpeedPaths`: the model with its fast paths.
* `applyNormOps`, `applyMetaspace`: the normalizer.
-/

namespace Hypertok

namespace SentencePiece

open Machine

/-- `SENTENCEPIECE_SPACE`. -/
def mark : Char := '\u2581'

/-- `SP_MARK`. -/
def spMark : List UInt8 := [0xE2, 0x96, 0x81]

lemma textBytes_mark : textBytes [mark] = spMark := rfl

/-- `WordSplit`. -/
inductive WordSplit
  | spaceRuns
  | everyMark
  | none
  deriving DecidableEq

/-- `RawPrepend`. -/
inductive RawPrepend
  | never
  | unguarded
  | guardedAlways
  | guardedFirst
  deriving DecidableEq

/-- `NormOp`. The functions of `nfc` and `precompiled` are `normalize_to` and `normalize_into`, of
tables that nothing here reads. -/
inductive NormOp
  | nfc (normalizeTo : List Char → List Char)
  | prepend (content : List Char)
  | replace (pattern content : List Char)
  | collapseSpaces (content : List Char)
  | strip (left right : Bool)
  | precompiled (normalizeInto : List Char → List Char)

/-- `PrependScheme`. -/
inductive PrependScheme
  | never
  | always
  | first
  deriving DecidableEq

/-- `Metaspace`. -/
structure Metaspace where
  prepend : PrependScheme
  split : Bool

/-- `AddedTokenSpec`. -/
structure AddedTokenSpec where
  content : List Char
  id : TokenId
  lstrip : Bool
  rstrip : Bool

/-- `SentencePieceBPE`, as the loaders assemble it. A rank is a `u32`. -/
structure SentencePieceModel where
  merges : RankedMerges
  vocab : List (List UInt8)
  vocabInv : AList fun _ : List UInt8 => TokenId
  byteFallbackIds : UInt8 → Option TokenId
  addedTokens : List AddedTokenSpec
  normAddedTokens : List AddedTokenSpec
  normOps : List NormOp
  metaspace : Option Metaspace
  rank_le : ∀ a b m r, merges.pair a b = some (m, r) → r ≤ u32Max

/-! ### Texts -/

/-- `char::is_whitespace`. -/
def isWhitespace (c : Char) : Bool :=
  let cp := c.toNat
  (9 ≤ cp && cp ≤ 13) || cp == 0x20 || cp == 0x85 || cp == 0xA0 || cp == 0x1680 ||
    (0x2000 ≤ cp && cp ≤ 0x200A) || cp == 0x2028 || cp == 0x2029 || cp == 0x202F || cp == 0x205F ||
    cp == 0x3000

/-- `str::trim_start`. -/
def trimStart (s : List Char) : List Char := s.dropWhile isWhitespace

/-- `str::trim_end`. -/
def trimEnd (s : List Char) : List Char := s.rdropWhile isWhitespace

/-- The loop of `str::replace`; so many characters are still those of a match. -/
def replaceFrom (pattern content : List Char) : ℕ → List Char → List Char
  | _, [] => if pattern = [] then content else []
  | skip + 1, _ :: s => replaceFrom pattern content skip s
  | 0, c :: s =>
      if pattern = [] then content ++ c :: replaceFrom pattern content 0 s
      else if pattern <+: c :: s then
        content ++ replaceFrom pattern content (pattern.length - 1) s
      else c :: replaceFrom pattern content 0 s

/-- `str::replace`. -/
def replaceAll (pattern content s : List Char) : List Char := replaceFrom pattern content 0 s

/-- The loop of `collapse_space_runs`, with the length of the run of spaces before. -/
def collapseFrom (content : List Char) : ℕ → List Char → List Char
  | 0, [] => []
  | 1, [] => [' ']
  | _, [] => content
  | run, c :: s =>
      if c = ' ' then collapseFrom content (run + 1) s
      else (if run = 0 then [] else if run = 1 then [' '] else content) ++
        c :: collapseFrom content 0 s

/-- `collapse_space_runs`. -/
def collapseSpaceRuns (s content : List Char) : List Char := collapseFrom content 0 s

/-! ### The normalizer -/

/-- One turn of `apply_norm_ops`. -/
def NormOp.apply (s : List Char) : NormOp → List Char
  | nfc normalizeTo => normalizeTo s
  | prepend content => if s = [] then s else content ++ s
  | replace pattern content => replaceAll pattern content s
  | collapseSpaces content => collapseSpaceRuns s content
  | strip left right =>
      match left, right with
      | true, true => trimEnd (trimStart s)
      | true, false => trimStart s
      | false, true => trimEnd s
      | false, false => s
  | precompiled normalizeInto => normalizeInto s

/-- `RawPrepend`, of the scheme of a `Metaspace`. -/
def PrependScheme.raw : Option PrependScheme → RawPrepend
  | Option.none => .never
  | some .never => .never
  | some .always => .guardedAlways
  | some .first => .guardedFirst

/-- `is_space_replace`. -/
def NormOp.isSpaceReplace : NormOp → Bool
  | replace pattern content => pattern = [' '] && content = [mark]
  | _ => false

/-! ### The tables of the scanner -/

/-- `MAX_CROSS_PIECES`. -/
def maxCrossPieces : ℕ := 32

/-- A vocabulary piece around one of its marks. -/
structure CrossPiece where
  pre : List UInt8
  post : List UInt8

/-- The loop of `unit_crossing_pieces` over the characters of a piece, behind `pre`. -/
def crossingsFrom (pre : List Char) (prevIsMark : Bool) :
    List Char → List CrossPiece → Option (List CrossPiece)
  | [], out => some out
  | c :: post, out =>
      if c = mark then
        if prevIsMark then crossingsFrom (pre ++ [c]) true post out
        else if mark ∈ pre ∨ mark ∈ post ∨ ' ' ∈ pre ∨ ' ' ∈ post ∨
            out.length = maxCrossPieces then Option.none
        else crossingsFrom (pre ++ [c]) true post (out ++ [⟨textBytes pre, textBytes post⟩])
      else crossingsFrom (pre ++ [c]) false post out

/-- One turn of `unit_crossing_pieces`. -/
def crossingStep (out : List CrossPiece) (piece : List UInt8) : Option (List CrossPiece) :=
  match fromUtf8 piece with
  | Option.none => some out
  | some s => crossingsFrom [] true s out

/-- `unit_crossing_pieces`. -/
def unitCrossingPieces (vocab : List (List UInt8)) : Option (List CrossPiece) :=
  vocab.foldlM crossingStep []

/-- The bytes stand side by side in a vocabulary piece. -/
def adjacent (vocab : List (List UInt8)) (x y : UInt8) : Bool :=
  vocab.any fun piece => (piece.zip piece.tail).contains (x, y)

/-- `[b'.', b',', b'"', b')', b';', b':', b'!', b'?']`. -/
def punctuation : List UInt8 := [46, 44, 34, 41, 59, 58, 33, 63]

/-- `SentencePieceBPE`, with the configuration of `finalize_speed_paths`. A bitset over bytes is a
predicate. -/
structure SentencePieceBPE extends SentencePieceModel where
  wordSplit : WordSplit
  rawPrepend : Option RawPrepend
  spaceInit : List TokenId
  asciiInit : UInt8 → Option TokenId
  splitBytes : List UInt8
  splitSafe : UInt8 → UInt8 → Bool
  crossPieces : List CrossPiece
  crossPrev : UInt8 → Bool

namespace SentencePieceModel

variable (m : SentencePieceModel)

/-- `apply_norm_ops`. -/
def applyNormOps (input : List Char) : List Char := m.normOps.foldl NormOp.apply input

/-- `apply_metaspace`. -/
def applyMetaspace (input : List Char) (firstChunk : Bool) : List Char :=
  match m.metaspace with
  | Option.none => input
  | some ms =>
      let s := input.map fun c => if c = ' ' then mark else c
      let prepend := match ms.prepend with
        | .always => true
        | .first => firstChunk
        | .never => false
      if prepend && s ≠ [] && s.head? ≠ some mark then mark :: s else s

/-- `prepends_space`. -/
def prependsSpace : Bool :=
  (m.metaspace.any fun ms => ms.prepend ≠ .never) ||
    m.normOps.any fun op => match op with
      | .prepend _ => true
      | _ => false

/-- The symbols of the mark. -/
def spaceInit : List TokenId :=
  match m.vocabInv.lookup spMark with
  | some id => [id]
  | Option.none => spMark.filterMap m.byteFallbackIds

/-- The symbol of an ASCII character. -/
def asciiInit (b : UInt8) : Option TokenId := (m.vocabInv.lookup [b]).or (m.byteFallbackIds b)

/-- The word split, and the pieces that cross its boundaries. -/
def split : WordSplit × List CrossPiece :=
  if m.metaspace.any Metaspace.split then (.everyMark, [])
  else match unitCrossingPieces m.vocab with
    | some cross => (.spaceRuns, cross)
    | Option.none => (.none, [])

/-- `compute_raw_prepend`. -/
def computeRawPrepend : Option RawPrepend :=
  if m.split.1 = .none ∨ m.normAddedTokens ≠ [] then Option.none
  else
    let fromMetaspace := PrependScheme.raw (m.metaspace.map Metaspace.prepend)
    match m.normOps with
    | [.prepend p, op] =>
        if p = [mark] ∧ op.isSpaceReplace ∧ m.split.1 ≠ .everyMark then some .unguarded
        else Option.none
    | [op] => if op.isSpaceReplace then some fromMetaspace else Option.none
    | [] => if m.metaspace.isSome then some fromMetaspace else Option.none
    | _ => Option.none

/-- `finalize_speed_paths`. A slot of `split_bytes` that is not used keeps the byte 0. -/
def finalizeSpeedPaths : SentencePieceBPE where
  toSentencePieceModel := m
  wordSplit := m.split.1
  rawPrepend := m.computeRawPrepend
  spaceInit := m.spaceInit
  asciiInit := m.asciiInit
  splitBytes := punctuation.map fun b =>
    if m.split.1 ≠ .none ∧ ∃ x : Fin 256, ¬ adjacent m.vocab (UInt8.ofFin x) b then b else 0
  splitSafe b x := m.split.1 ≠ .none && punctuation.contains b && !adjacent m.vocab x b
  crossPieces := m.split.2
  crossPrev b := m.split.2.any fun piece => piece.pre.getLast? = some b

end SentencePieceModel

end SentencePiece

end Hypertok
