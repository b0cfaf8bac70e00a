import Hypertok.Machine.StableSort

/-!
The NFC engine of `bpe/nfc.rs`. Its tables are a parameter: any combining classes, any
decompositions that end, any compositions and any answers of the quick check. A character is a
unit with a source span; the spans may be of any type, with a union.

* `Reordered`: each run of characters that are no starters is sorted by class, in a stable way.
* `reorder_eq`: that is what `reorder` does.
* `canonicalStep`: a character is composed with the last starter, unless it is blocked.
* `composeUnits_eq`: that is what `compose_units` does.
* `normalizeWithSpans_correct`: the text is the one of `normalize_to`, with one span for each byte.
-/

namespace Hypertok

open Machine

/-- `SourceSpan`. -/
structure SourceSpan where
  start : ℕ
  stop : ℕ
  deriving DecidableEq

/-- `Data`: the tables of the engine. The decompositions end. -/
structure NfcData where
  combiningClass : Char → ℕ
  singletonDecomposition : Char → Option Char
  pairDecomposition : Char → Option (Char × Char)
  composition : Char → Char → Option Char
  quickCheckNo : Char → Bool
  quickCheckMaybe : Char → Bool
  depth : Char → ℕ
  singleton_depth : ∀ c d, singletonDecomposition c = some d → depth d < depth c
  pair_depth : ∀ c d e, pairDecomposition c = some (d, e) → depth d < depth c ∧ depth e < depth c

/-- `Unit`. -/
structure NfcUnit (S : Type) where
  ch : Char
  span : S
  deriving DecidableEq

/-- `QuickCheck`. -/
inductive QuickCheck
  | yes
  | no
  | maybe
  deriving DecidableEq

namespace Nfc

variable {S : Type} (data : NfcData) (union : S → S → S)

/-- `HANGUL_S_BASE`. -/
def hangulSBase : ℕ := 0xAC00

/-- `HANGUL_L_BASE`. -/
def hangulLBase : ℕ := 0x1100

/-- `HANGUL_V_BASE`. -/
def hangulVBase : ℕ := 0x1161

/-- `HANGUL_T_BASE`. -/
def hangulTBase : ℕ := 0x11A7

/-- `HANGUL_L_COUNT`. -/
def hangulLCount : ℕ := 19

/-- `HANGUL_V_COUNT`. -/
def hangulVCount : ℕ := 21

/-- `HANGUL_T_COUNT`. -/
def hangulTCount : ℕ := 28

/-- `HANGUL_N_COUNT`. -/
def hangulNCount : ℕ := hangulVCount * hangulTCount

/-- `HANGUL_S_COUNT`. -/
def hangulSCount : ℕ := hangulLCount * hangulNCount

/-- `wrapping_sub` of `u32`. -/
def wrappingSub (a b : ℕ) : ℕ := (a + (2 ^ 32 - b)) % 2 ^ 32

/-- `scalar`, of a codepoint that is one. -/
def scalar (codepoint : ℕ) : Char := Char.ofNat codepoint

/-- The jamo of a Hangul syllable. -/
def hangulJamo (hangul : ℕ) : List Char :=
  let lead := hangulLBase + hangul / hangulNCount
  let vowel := hangulVBase + hangul % hangulNCount / hangulTCount
  let trail := hangul % hangulTCount
  scalar lead :: scalar vowel :: if trail ≠ 0 then [scalar (hangulTBase + trail)] else []

/-- The recursion of `decompose`, as deep as the tables go. -/
def decomposeChar : ℕ → Char → List Char
  | 0, ch => [ch]
  | depth + 1, ch =>
      let hangul := wrappingSub ch.toNat hangulSBase
      if hangul < hangulSCount then hangulJamo hangul
      else match data.singletonDecomposition ch with
        | some value => decomposeChar depth value
        | none => match data.pairDecomposition ch with
          | some (first, second) => decomposeChar depth first ++ decomposeChar depth second
          | none => [ch]

/-- `decompose`: all units have the span of the character. -/
def decompose (ch : Char) (span : S) : List (NfcUnit S) :=
  (decomposeChar data (data.depth ch + 1) ch).map fun c => ⟨c, span⟩

/-- The class of a unit. -/
def classOf (unit : NfcUnit S) : ℕ := data.combiningClass unit.ch

/-- `swap`. -/
def swap (units : List (NfcUnit S)) (i j : ℕ) : Option (List (NfcUnit S)) := do
  let a ← units[i]?
  let b ← units[j]?
  return (units.set i b).set j a

/-- The inner loop of `reorder`. An index out of range would panic (`none`). -/
def bubble (ccc : ℕ) : ℕ → List (NfcUnit S) → Option (List (NfcUnit S))
  | 0, units => some units
  | position + 1, units => do
      let previous := classOf data (← units[position]?)
      if previous = 0 ∨ previous ≤ ccc then return units
      else bubble ccc position (← swap units position (position + 1))

/-- One turn of the outer loop of `reorder`. -/
def reorderStep (units : List (NfcUnit S)) (index : ℕ) : Option (List (NfcUnit S)) := do
  let ccc := classOf data (← units[index]?)
  if ccc = 0 then return units
  else bubble data ccc index units

/-- `reorder`. -/
def reorder (units : List (NfcUnit S)) : Option (List (NfcUnit S)) :=
  (List.range' 1 (units.length - 1)).foldlM (reorderStep data) units

/-- `compose_pair`. -/
def composePair (first second : Char) : Option Char :=
  let lead := wrappingSub first.toNat hangulLBase
  let vowel := wrappingSub second.toNat hangulVBase
  let syllable := wrappingSub first.toNat hangulSBase
  let trail := wrappingSub second.toNat hangulTBase
  if lead < hangulLCount ∧ vowel < hangulVCount then
    some (scalar (hangulSBase + (lead * hangulVCount + vowel) * hangulTCount))
  else if syllable < hangulSCount ∧ syllable % hangulTCount = 0 ∧ 1 ≤ trail ∧
      trail < hangulTCount then
    some (scalar (first.toNat + trail))
  else data.composition first second

/-- The variables of the loop of `compose_units`. -/
structure ComposeState (S : Type) where
  output : List (NfcUnit S)
  starterIndex : Option ℕ
  previousCcc : ℕ

/-- What the condition of `compose_units` finds: the starter, and its composite with the unit. -/
def composite (st : ComposeState S) (unit : NfcUnit S) : Option (ℕ × NfcUnit S) := do
  let index ← st.starterIndex
  if st.previousCcc = 0 ∨ st.previousCcc < classOf data unit then do
    let starter ← st.output[index]?
    let ch ← composePair data starter.ch unit.ch
    return (index, ⟨ch, union starter.span unit.span⟩)
  else none

/-- One turn of the loop of `compose_units`. -/
def composeStep (st : ComposeState S) (unit : NfcUnit S) : ComposeState S :=
  let ccc := classOf data unit
  match composite data union st unit with
  | some (index, starter) => { st with output := st.output.set index starter }
  | none => {
      output := st.output ++ [unit]
      starterIndex := if ccc = 0 then some st.output.length else st.starterIndex
      previousCcc := ccc }

/-- `compose_units`. -/
def composeUnits (decomposed : List (NfcUnit S)) : List (NfcUnit S) :=
  (decomposed.foldl (composeStep data union) ⟨[], none, 0⟩).output

/-- `encode_units`. -/
def encodeUnits (units : List (NfcUnit S)) : List Char × List S :=
  (units.map NfcUnit.ch, units.flatMap fun unit => List.replicate unit.ch.utf8Size unit.span)

/-- `union_two`. -/
def unionTwo (first second : SourceSpan) : SourceSpan :=
  ⟨min first.start second.start, max first.stop second.stop⟩

/-- `union_span`. -/
def unionSpan : List SourceSpan → SourceSpan
  | [] => ⟨0, 0⟩
  | span :: spans => spans.foldl unionTwo span

/-- The variables of the loop of `quick_check`. -/
structure CheckState where
  starter : Option Char
  previousCcc : ℕ
  result : QuickCheck

/-- The loop of `quick_check`. -/
def quickCheckLoop : List Char → CheckState → QuickCheck
  | [], st => st.result
  | ch :: rest, st =>
      let ccc := data.combiningClass ch
      let composes := st.starter.any fun first =>
        (st.previousCcc = 0 || st.previousCcc < ccc) && (composePair data first ch).isSome
      let next : QuickCheck → CheckState := fun result =>
        ⟨if ccc = 0 then some ch else st.starter, ccc, result⟩
      if data.quickCheckNo ch then .no
      else if ccc ≠ 0 ∧ ccc < st.previousCcc then .no
      else if data.quickCheckMaybe ch then
        if composes then .no else quickCheckLoop rest (next .maybe)
      else quickCheckLoop rest (next st.result)

/-- `quick_check`. -/
def quickCheck (input : List Char) : QuickCheck := quickCheckLoop data input ⟨none, 0, .yes⟩

/-- `normalize_slow`. -/
def normalizeSlow (input : List Char) : Option (List Char) := do
  let decomposed := input.flatMap fun ch => decompose data ch (⟨0, 0⟩ : SourceSpan)
  let reordered ← reorder data decomposed
  return (composeUnits data unionTwo reordered).map NfcUnit.ch

/-- `normalize_to`. -/
def normalizeTo (input : List Char) : Option (List Char) :=
  if quickCheck data input = .yes then some input else normalizeSlow data input

/-- `is_normalized`. -/
def isNormalized (input : List Char) : Option Bool :=
  match quickCheck data input with
  | .yes => some true
  | .no => some false
  | .maybe => (normalizeSlow data input).map fun normalized => normalized = input

/-- The span of each character: the union of those of its bytes. -/
def charSpans : List Char → List SourceSpan → Option (List SourceSpan)
  | [], _ => some []
  | ch :: rest, byteSpans =>
      if ch.utf8Size ≤ byteSpans.length then
        (charSpans rest (byteSpans.drop ch.utf8Size)).map
          fun spans => unionSpan (byteSpans.take ch.utf8Size) :: spans
      else none

/-- `normalize_with_spans`. -/
def normalizeWithSpans (input : List Char) (byteSpans : List SourceSpan) :
    Option (List Char × List SourceSpan) := do
  if ← isNormalized data input then return (input, byteSpans)
  else do
    let spans ← charSpans input byteSpans
    let decomposed := (input.zip spans).flatMap fun p => decompose data p.1 p.2
    let reordered ← reorder data decomposed
    return encodeUnits (composeUnits data unionTwo reordered)

/-! ### The order -/

/-- Each run between starters is sorted by class, in a stable way. -/
inductive Reordered : List (NfcUnit S) → List (NfcUnit S) → Prop
  | run {l out : List (NfcUnit S)} (hmarks : ∀ u ∈ l, classOf data u ≠ 0)
      (hsort : IsStableSort (classOf data) l out) : Reordered l out
  | starter {l out marks out' : List (NfcUnit S)} {s : NfcUnit S} (h : Reordered l out)
      (hstarter : classOf data s = 0) (hmarks : ∀ u ∈ marks, classOf data u ≠ 0)
      (hsort : IsStableSort (classOf data) marks out') :
      Reordered (l ++ s :: marks) (out ++ s :: out')

variable {data : NfcData} {union : S → S → S} {l out : List (NfcUnit S)} {c : NfcUnit S}

/-- A mark goes back to the last unit that is a starter, or of its class or less. -/
lemma Reordered.insert {keep moved : List (NfcUnit S)} (h : Reordered data l (keep ++ moved))
    (hc : classOf data c ≠ 0)
    (hmoved : ∀ u ∈ moved, classOf data u ≠ 0 ∧ classOf data c < classOf data u)
    (hkeep : ∀ u ∈ keep.getLast?, classOf data u = 0 ∨ classOf data u ≤ classOf data c) :
    Reordered data (l ++ [c]) (keep ++ c :: moved) := by
  -- in a sorted run the last unit that stays bounds the ones before it
  have hbelow : ∀ run : List (NfcUnit S), (∀ u ∈ run, classOf data u ≠ 0) →
      run.Pairwise (fun a b => classOf data a ≤ classOf data b) →
      (∀ u ∈ run.getLast?, classOf data u = 0 ∨ classOf data u ≤ classOf data c) →
      ∀ u ∈ run, classOf data u ≤ classOf data c := by
    intro run hmarks hsorted hlast u hu
    obtain ⟨init, last, rfl⟩ := List.eq_nil_or_concat run |>.resolve_left (List.ne_nil_of_mem hu)
    rw [List.concat_eq_append] at hmarks hsorted hlast hu
    have hle := (hlast last (by simp)).resolve_left (hmarks last (by simp))
    rcases List.mem_append.mp hu with hu | hu
    · exact ((List.pairwise_append.mp hsorted).2.2 u hu last (List.mem_singleton_self _)).trans hle
    · exact List.mem_singleton.mp hu ▸ hle
  generalize hout : keep ++ moved = out at h
  cases h with
  | run hmarks hsort =>
      subst hout
      have hall : ∀ u ∈ keep, classOf data u ≠ 0 := fun u hu =>
        hmarks u (hsort.mem_iff.mp (List.mem_append_left _ hu))
      refine .run ?_ (hsort.insert (hbelow keep hall (List.pairwise_append.mp hsort.sorted).1 hkeep)
        fun u hu => (hmoved u hu).2)
      intro u hu
      rcases List.mem_append.mp hu with hu | hu
      · exact hmarks u hu
      · exact List.mem_singleton.mp hu ▸ hc
  | @starter l out marks out' s h hstarter hmarks hsort =>
      obtain ⟨keep', rfl, rfl⟩ : ∃ keep', keep = out ++ s :: keep' ∧ out' = keep' ++ moved := by
        have hnot : s ∉ moved := fun hs => (hmoved s hs).1 hstarter
        rcases List.append_eq_append_iff.mp hout with ⟨as, -, hsplit⟩ | ⟨bs, hkeepEq, hsplit⟩
        · exact absurd (hsplit ▸ List.mem_append_right as (List.mem_cons_self ..)) hnot
        · cases bs with
          | nil =>
              obtain rfl : moved = s :: out' := hsplit.symm
              exact absurd (List.mem_cons_self ..) hnot
          | cons b keep' =>
              obtain ⟨rfl, rfl⟩ := List.cons.inj hsplit
              exact ⟨keep', hkeepEq, rfl⟩
      have hall : ∀ u ∈ keep', classOf data u ≠ 0 := fun u hu =>
        hmarks u (hsort.mem_iff.mp (List.mem_append_left _ hu))
      have hlast : ∀ u ∈ keep'.getLast?, classOf data u = 0 ∨ classOf data u ≤ classOf data c := by
        intro u hu
        refine hkeep u ?_
        rw [List.getLast?_append, List.getLast?_cons, Option.mem_def.mp hu]
        rfl
      have hinsert := hsort.insert (hbelow keep' hall (List.pairwise_append.mp hsort.sorted).1 hlast)
        fun u hu => (hmoved u hu).2
      have hmarks' : ∀ u ∈ marks ++ [c], classOf data u ≠ 0 := by
        intro u hu
        rcases List.mem_append.mp hu with hu | hu
        · exact hmarks u hu
        · exact List.mem_singleton.mp hu ▸ hc
      have hnext := h.starter hstarter hmarks' hinsert
      rwa [List.append_assoc, List.cons_append, List.append_assoc, List.cons_append]

/-- The inner loop of `reorder` moves a unit back over the marks of a greater class. -/
lemma bubble_eq (data : NfcData) (ccc : ℕ) (front back : List (NfcUnit S)) (c : NfcUnit S) :
    ∃ keep moved, front = keep ++ moved ∧
      (∀ u ∈ moved, classOf data u ≠ 0 ∧ ccc < classOf data u) ∧
      (∀ u ∈ keep.getLast?, classOf data u = 0 ∨ classOf data u ≤ ccc) ∧
      bubble data ccc front.length (front ++ c :: back) = some (keep ++ c :: moved ++ back) := by
  induction front using List.reverseRecOn generalizing back with
  | nil =>
      exact ⟨[], [], rfl, List.forall_mem_nil _, fun u hu => absurd hu (Option.not_mem_none u), rfl⟩
  | append_singleton front previous ih =>
      have hget : (front ++ [previous] ++ c :: back)[front.length]? = some previous := by simp
      rw [List.length_append, List.length_singleton, bubble, hget, Option.bind_eq_bind,
        Option.bind_some]
      by_cases hstop : classOf data previous = 0 ∨ classOf data previous ≤ ccc
      · refine ⟨front ++ [previous], [], (List.append_nil _).symm, List.forall_mem_nil _, ?_, ?_⟩
        · intro u hu
          rw [List.getLast?_append, List.getLast?_singleton] at hu
          exact Option.some_inj.mp hu ▸ hstop
        · rw [if_pos hstop, List.append_assoc _ [c] back]
          rfl
      · have hswap : swap (front ++ [previous] ++ c :: back) front.length (front.length + 1) =
            some (front ++ c :: previous :: back) := by
          simp [swap]
        obtain ⟨keep, moved, rfl, hmoved, hkeep, hbubble⟩ := ih (previous :: back)
        refine ⟨keep, moved ++ [previous], List.append_assoc _ _ _, ?_, hkeep, ?_⟩
        · intro u hu
          rcases List.mem_append.mp hu with hu | hu
          · exact hmoved u hu
          · rw [List.mem_singleton.mp hu]
            omega
        · rw [if_neg hstop, hswap, Option.bind_eq_bind, Option.bind_some, hbubble]
          simp

lemma Reordered.singleton (c : NfcUnit S) : Reordered data [c] [c] := by
  by_cases hc : classOf data c = 0
  · have hnil : Reordered data ([] : List (NfcUnit S)) [] := .run (List.forall_mem_nil _) .nil
    exact hnil.starter hc (List.forall_mem_nil _) .nil
  · refine .run (fun u hu => List.mem_singleton.mp hu ▸ hc) ?_
    have hnil : IsStableSort (classOf data) ([] : List (NfcUnit S)) ([] ++ []) := .nil
    exact hnil.insert (List.forall_mem_nil _) (List.forall_mem_nil _)

/-- One turn of the outer loop of `reorder`. -/
lemma Reordered.step {done : List (NfcUnit S)} (h : Reordered data done out)
    (rest : List (NfcUnit S)) (c : NfcUnit S) : ∃ out', reorderStep data (out ++ c :: rest) out.length = some (out' ++ rest) ∧
      Reordered data (done ++ [c]) out' ∧ out'.length = out.length + 1 := by
  have hget : (out ++ c :: rest)[out.length]? = some c := by simp
  rw [reorderStep, hget, Option.bind_eq_bind, Option.bind_some]
  by_cases hc : classOf data c = 0
  · refine ⟨out ++ [c], ?_, h.starter hc (List.forall_mem_nil _) .nil, List.length_append⟩
    rw [if_pos hc, List.append_assoc]
    rfl
  · obtain ⟨keep, moved, hout, hmoved, hkeep, hbubble⟩ :=
      bubble_eq data (classOf data c) out rest c
    subst hout
    refine ⟨keep ++ c :: moved, by rw [if_neg hc, hbubble], h.insert hc hmoved hkeep, ?_⟩
    rw [List.length_append, List.length_append, List.length_cons]
    omega

/-- `reorder` sorts each run between starters by class, in a stable way. -/
theorem reorder_eq (data : NfcData) (units : List (NfcUnit S)) :
    ∃ out, reorder data units = some out ∧ Reordered data units out := by
  have hloop : ∀ (rest done out : List (NfcUnit S)), Reordered data done out →
      ∃ out', (List.range' out.length rest.length).foldlM (reorderStep data) (out ++ rest) =
        some out' ∧ Reordered data (done ++ rest) out' := by
    intro rest
    induction rest with
    | nil =>
        intro done out h
        exact ⟨out, by rw [List.append_nil]; rfl, by rwa [List.append_nil]⟩
    | cons c rest ih =>
        intro done out h
        obtain ⟨out₁, hstep, h₁, hlen⟩ := h.step rest c
        obtain ⟨out', hrest, h'⟩ := ih _ _ h₁
        refine ⟨out', ?_, ?_⟩
        · rw [List.length_cons, List.range'_succ, List.foldlM_cons, hstep, Option.bind_eq_bind,
            Option.bind_some, ← hlen, hrest]
        · rwa [List.append_assoc] at h'
  cases units with
  | nil => exact ⟨[], rfl, .run (List.forall_mem_nil _) .nil⟩
  | cons u units => exact hloop units [u] [u] (.singleton u)

/-! ### The composition -/

/-- A unit of the composed text, with the class that it had when it was read. -/
structure Cell (S : Type) where
  unit : NfcUnit S
  ccc : ℕ

/-- The position of the last starter. -/
def lastStarter : List (Cell S) → Option ℕ
  | [] => none
  | cell :: cells => match lastStarter cells with
    | some i => some (i + 1)
    | none => if cell.ccc = 0 then some 0 else none

/-- A character of the class is blocked from a starter: between them there is another starter, or
a mark of its class or more. -/
def Blocked (cells : List (Cell S)) (i ccc : ℕ) : Prop :=
  ∃ cell ∈ cells.drop (i + 1), cell.ccc = 0 ∨ ccc ≤ cell.ccc

instance (cells : List (Cell S)) (i ccc : ℕ) : Decidable (Blocked cells i ccc) :=
  inferInstanceAs (Decidable (∃ cell ∈ cells.drop (i + 1), cell.ccc = 0 ∨ ccc ≤ cell.ccc))

/-- The primary composite of a character with the last starter, if it is not blocked from it. -/
def primaryComposite (data : NfcData) (union : S → S → S) (cells : List (Cell S))
    (unit : NfcUnit S) : Option (ℕ × Cell S) := do
  let i ← lastStarter cells
  if Blocked cells i (classOf data unit) then none
  else do
    let starter ← cells[i]?
    let ch ← composePair data starter.unit.ch unit.ch
    return (i, ⟨⟨ch, union starter.unit.span unit.span⟩, starter.ccc⟩)

/-- Canonical composition, of one character: it is composed with the last starter, or kept. -/
def canonicalStep (data : NfcData) (union : S → S → S) (cells : List (Cell S))
    (unit : NfcUnit S) : List (Cell S) :=
  match primaryComposite data union cells unit with
  | some (i, starter) => cells.set i starter
  | none => cells ++ [⟨unit, classOf data unit⟩]

/-- Canonical composition. -/
def canonicalCompose (data : NfcData) (union : S → S → S) (units : List (NfcUnit S)) :
    List (NfcUnit S) :=
  (units.foldl (canonicalStep data union) []).map Cell.unit

section

variable {before marks : List (Cell S)} {s : Cell S}

lemma lastStarter_eq_none (h : ∀ m ∈ marks, m.ccc ≠ 0) : lastStarter marks = none := by
  induction marks with
  | nil => rfl
  | cons m marks ih =>
      obtain ⟨hm, hrest⟩ := List.forall_mem_cons.mp h
      rw [lastStarter, ih hrest]
      exact if_neg hm

lemma lastStarter_append (hs : s.ccc = 0) (h : ∀ m ∈ marks, m.ccc ≠ 0) :
    lastStarter (before ++ s :: marks) = some before.length := by
  induction before with
  | nil =>
      rw [List.nil_append, lastStarter, lastStarter_eq_none h]
      exact if_pos hs
  | cons b before ih => rw [List.cons_append, lastStarter, ih, List.length_cons]

lemma ccc_of_lastStarter {cells : List (Cell S)} {i : ℕ} (hi : lastStarter cells = some i)
    (hs : cells[i]? = some s) : s.ccc = 0 := by
  induction cells generalizing i with
  | nil => cases hi
  | cons cell cells ih =>
      rw [lastStarter] at hi
      cases hlast : lastStarter cells with
      | some j =>
          rw [hlast] at hi
          cases hi
          exact ih hlast hs
      | none =>
          rw [hlast] at hi
          obtain ⟨hzero, hi⟩ := Option.ite_none_right_eq_some.mp hi
          cases hi
          cases hs
          exact hzero

/-- The variables of `compose_units`, after some characters: `last` is the class of the last
one. The marks after the starter are at most of the class that is remembered. -/
inductive Composing : List (Cell S) → ℕ → ComposeState S → Prop
  | marks {marks : List (Cell S)} {last previous : ℕ} (hmarks : ∀ m ∈ marks, m.ccc ≠ 0) :
      Composing marks last ⟨marks.map Cell.unit, none, previous⟩
  | starter {before marks : List (Cell S)} {s : Cell S} {last previous : ℕ} (hs : s.ccc = 0)
      (hmarks : ∀ m ∈ marks, m.ccc ≠ 0 ∧ m.ccc ≤ previous)
      (hmax : marks = [] ∧ previous = 0 ∨ ∃ m ∈ marks, m.ccc = previous)
      (hlast : previous ≤ last) :
      Composing (before ++ s :: marks) last
        ⟨(before ++ s :: marks).map Cell.unit, some before.length, previous⟩

lemma Composing.output_eq {cells : List (Cell S)} {last : ℕ} {st : ComposeState S}
    (h : Composing cells last st) : st.output = cells.map Cell.unit := by
  cases h <;> rfl

/-- The last mark tells whether a character is blocked. -/
lemma not_blocked_iff {previous ccc : ℕ} (hmarks : ∀ m ∈ marks, m.ccc ≠ 0 ∧ m.ccc ≤ previous)
    (hmax : marks = [] ∧ previous = 0 ∨ ∃ m ∈ marks, m.ccc = previous) :
    ¬ Blocked (before ++ s :: marks) before.length ccc ↔ previous = 0 ∨ previous < ccc := by
  have hdrop : (before ++ s :: marks).drop (before.length + 1) = marks := by simp
  rw [Blocked, hdrop]
  constructor
  · intro h
    rcases hmax with ⟨-, hzero⟩ | ⟨m, hm, rfl⟩
    · exact .inl hzero
    · exact .inr (Nat.lt_of_not_le fun hle => h ⟨m, hm, .inr hle⟩)
  · rintro h ⟨m, hm, hblock⟩
    obtain ⟨hne, hle⟩ := hmarks m hm
    omega

/-- `compose_units` finds the primary composite. -/
lemma Composing.composite_eq {cells : List (Cell S)} {last : ℕ} {st : ComposeState S}
    (h : Composing cells last st) (c : NfcUnit S) :
    composite data union st c =
      (primaryComposite data union cells c).map fun p => (p.1, p.2.unit) := by
  cases h with
  | marks hmarks =>
      rw [primaryComposite, lastStarter_eq_none hmarks]
      rfl
  | @starter before marks s last previous hs hmarks hmax hlast =>
      have hblocked : ¬ Blocked (before ++ s :: marks) before.length (classOf data c) ↔
          previous = 0 ∨ previous < classOf data c := not_blocked_iff hmarks hmax
      have hcell : (before ++ s :: marks)[before.length]? = some s := by simp
      have hunit : ((before ++ s :: marks).map Cell.unit)[before.length]? = some s.unit := by
        rw [List.getElem?_map, hcell, Option.map_some]
      rw [composite, primaryComposite, lastStarter_append hs fun m hm => (hmarks m hm).1]
      dsimp only [Option.bind_eq_bind, Option.bind_some]
      by_cases hb : Blocked (before ++ s :: marks) before.length (classOf data c)
      · rw [if_pos hb, if_neg (mt hblocked.mpr (not_not_intro hb)), Option.map_none]
      · rw [if_neg hb, if_pos (hblocked.mp hb), hunit, hcell, Option.bind_some, Option.bind_some]
        cases composePair data s.unit.ch c.ch <;> rfl

/-- A unit that is kept. -/
lemma Composing.push {cells : List (Cell S)} {last : ℕ} {st : ComposeState S}
    (h : Composing cells last st) {c : NfcUnit S}
    (hc : classOf data c = 0 ∨ last ≤ classOf data c) :
    Composing (cells ++ [⟨c, classOf data c⟩]) (classOf data c) {
      output := st.output ++ [c]
      starterIndex := if classOf data c = 0 then some st.output.length else st.starterIndex
      previousCcc := classOf data c } := by
  have hmap : st.output ++ [c] = (cells ++ [(⟨c, classOf data c⟩ : Cell S)]).map Cell.unit := by
    rw [h.output_eq, List.map_append, List.map_singleton]
  have hlen : st.output.length = cells.length := by rw [h.output_eq, List.length_map]
  rw [hmap, hlen]
  by_cases hzero : classOf data c = 0
  · rw [if_pos hzero]
    exact .starter hzero (List.forall_mem_nil _) (.inl ⟨rfl, hzero⟩) le_rfl
  · rw [if_neg hzero]
    cases h with
    | marks hmarks =>
        refine .marks fun m hm => ?_
        rcases List.mem_append.mp hm with hm | hm
        · exact hmarks m hm
        · rwa [List.mem_singleton.mp hm]
    | @starter before marks s last previous hs hmarks hmax hlast =>
        have hle := hc.resolve_left hzero
        rw [List.append_assoc, List.cons_append]
        refine .starter hs ?_ (.inr ⟨_, List.mem_append_right _ (List.mem_singleton_self _), rfl⟩)
          le_rfl
        intro m hm
        rcases List.mem_append.mp hm with hm | hm
        · exact ⟨(hmarks m hm).1, (hmarks m hm).2.trans (hlast.trans hle)⟩
        · rw [List.mem_singleton.mp hm]
          exact ⟨hzero, le_rfl⟩

/-- One turn of the loop of `compose_units`. -/
lemma Composing.step {cells : List (Cell S)} {last : ℕ} {st : ComposeState S}
    (h : Composing cells last st) {c : NfcUnit S}
    (hc : classOf data c = 0 ∨ last ≤ classOf data c) :
    Composing (canonicalStep data union cells c) (classOf data c)
      (composeStep data union st c) := by
  rw [composeStep, h.composite_eq, canonicalStep]
  cases hprimary : primaryComposite data union cells c with
  | none => exact h.push hc
  | some p =>
      cases h with
      | marks hmarks =>
          rw [primaryComposite, lastStarter_eq_none hmarks] at hprimary
          cases hprimary
      | @starter before marks s last previous hs hmarks hmax hlast =>
          have hcell : (before ++ s :: marks)[before.length]? = some s := by simp
          rw [primaryComposite, lastStarter_append hs fun m hm => (hmarks m hm).1,
            Option.bind_eq_bind, Option.bind_some] at hprimary
          obtain ⟨hnot, hprimary⟩ := Option.ite_none_left_eq_some.mp hprimary
          rw [hcell, Option.bind_eq_bind, Option.bind_some] at hprimary
          obtain ⟨ch, -, hp⟩ := Option.bind_eq_some_iff.mp hprimary
          cases hp
          have hprevious := (not_blocked_iff hmarks hmax).mp hnot
          have hset : ∀ t : Cell S, (before ++ s :: marks).set before.length t =
              before ++ t :: marks := fun t => by simp
          have hunits : ∀ t : Cell S, ((before ++ s :: marks).map Cell.unit).set before.length
              t.unit = (before ++ t :: marks).map Cell.unit := fun t => by rw [← List.map_set, hset]
          dsimp only [Option.map_some]
          rw [hset, hunits ⟨⟨ch, union s.unit.span c.span⟩, s.ccc⟩]
          exact .starter hs hmarks hmax (by omega)

/-- The marks of each run are in the order of their classes. -/
def InOrder (data : NfcData) : ℕ → List (NfcUnit S) → Prop
  | _, [] => True
  | last, c :: rest =>
      (classOf data c = 0 ∨ last ≤ classOf data c) ∧ InOrder data (classOf data c) rest

/-- `compose_units` computes the canonical composition. -/
lemma Composing.run {units : List (NfcUnit S)} {cells : List (Cell S)} {last : ℕ}
    {st : ComposeState S} (h : Composing cells last st) (horder : InOrder data last units) :
    ∃ last', Composing (units.foldl (canonicalStep data union) cells) last'
      (units.foldl (composeStep data union) st) := by
  induction units generalizing cells last st with
  | nil => exact ⟨last, h⟩
  | cons c rest ih => exact ih (h.step horder.1) horder.2

end

lemma InOrder.append {s : NfcUnit S} (hs : classOf data s = 0) {units : List (NfcUnit S)} {last : ℕ}
    {run : List (NfcUnit S)} (h : InOrder data last units) (hrun : InOrder data 0 run) :
    InOrder data last (units ++ s :: run) := by
  induction units generalizing last with
  | nil => exact ⟨.inl hs, hs ▸ hrun⟩
  | cons c rest ih => exact ⟨h.1, ih h.2⟩

lemma inOrder_of_sorted {last : ℕ} {run : List (NfcUnit S)}
    (hlast : ∀ u ∈ run, last ≤ classOf data u)
    (hsorted : run.Pairwise fun a b => classOf data a ≤ classOf data b) :
    InOrder data last run := by
  induction run generalizing last with
  | nil => trivial
  | cons c rest ih =>
      obtain ⟨hc, hrest⟩ := List.pairwise_cons.mp hsorted
      exact ⟨.inr (hlast c (List.mem_cons_self ..)), ih hc hrest⟩

lemma Reordered.inOrder (h : Reordered data l out) : InOrder data 0 out := by
  induction h with
  | run hmarks hsort => exact inOrder_of_sorted (fun u _ => Nat.zero_le _) hsort.sorted
  | starter h hstarter hmarks hsort ih =>
      exact ih.append hstarter (inOrder_of_sorted (fun u _ => Nat.zero_le _) hsort.sorted)

/-- `compose_units` is the canonical composition, of characters that `reorder` has sorted. -/
theorem composeUnits_eq (union : S → S → S) (h : Reordered data l out) :
    composeUnits data union out = canonicalCompose data union out := by
  have hstart : Composing [] 0 (⟨[], none, 0⟩ : ComposeState S) := .marks (List.forall_mem_nil _)
  obtain ⟨last, hrun⟩ := hstart.run h.inOrder
  exact hrun.output_eq

/-- The classes that are remembered are those of the characters, where the composites of starters
are starters. -/
theorem ccc_eq_classOf (union : S → S → S)
    (hstarters : ∀ a b ch, data.combiningClass a = 0 → composePair data a b = some ch →
      data.combiningClass ch = 0) (units : List (NfcUnit S)) :
    ∀ cell ∈ units.foldl (canonicalStep data union) [], cell.ccc = classOf data cell.unit := by
  have hstep : ∀ (cells : List (Cell S)) (c : NfcUnit S),
      (∀ cell ∈ cells, cell.ccc = classOf data cell.unit) →
      ∀ cell ∈ canonicalStep data union cells c, cell.ccc = classOf data cell.unit := by
    intro cells c h cell hcell
    rw [canonicalStep] at hcell
    cases hprimary : primaryComposite data union cells c with
    | none =>
        rw [hprimary] at hcell
        rcases List.mem_append.mp hcell with hcell | hcell
        · exact h cell hcell
        · rw [List.mem_singleton.mp hcell]
    | some p =>
        rw [hprimary] at hcell
        rcases List.mem_or_eq_of_mem_set hcell with hcell | rfl
        · exact h cell hcell
        · obtain ⟨i, hi, hprimary⟩ := Option.bind_eq_some_iff.mp hprimary
          obtain ⟨-, hprimary⟩ := Option.ite_none_left_eq_some.mp hprimary
          obtain ⟨starter, hstarter, hprimary⟩ := Option.bind_eq_some_iff.mp hprimary
          obtain ⟨ch, hch, hp⟩ := Option.bind_eq_some_iff.mp hprimary
          cases hp
          have hzero := ccc_of_lastStarter hi hstarter
          have hclass := h starter (List.mem_of_getElem? hstarter)
          exact hzero.trans (hstarters _ _ ch (hclass.symm.trans hzero) hch).symm
  exact List.foldlRecOn units (canonicalStep data union) (List.forall_mem_nil _)
    fun cells h c _ => hstep cells c h

/-! ### The spans -/

lemma unionTwo_assoc (a b c : SourceSpan) :
    unionTwo (unionTwo a b) c = unionTwo a (unionTwo b c) := by
  simp only [unionTwo, min_assoc, max_assoc]

instance : Std.Associative unionTwo := ⟨unionTwo_assoc⟩

lemma unionSpan_append {a b : List SourceSpan} (ha : a ≠ []) (hb : b ≠ []) :
    unionSpan (a ++ b) = unionTwo (unionSpan a) (unionSpan b) := by
  obtain ⟨x, a, rfl⟩ := List.exists_cons_of_ne_nil ha
  obtain ⟨y, b, rfl⟩ := List.exists_cons_of_ne_nil hb
  rw [List.cons_append, unionSpan, unionSpan, unionSpan, List.foldl_append, List.foldl_cons,
    List.foldl_assoc]

/-- The positions of the characters that a unit comes from. -/
structure Origin where
  positions : List ℕ
  ne_nil : positions ≠ []
  deriving DecidableEq

/-- The characters of both. -/
def Origin.join (a b : Origin) : Origin :=
  ⟨a.positions ++ b.positions, fun h => a.ne_nil (List.append_eq_nil_iff.mp h).1⟩

/-- The union of the spans of the characters. -/
def Origin.span (spans : List SourceSpan) (origin : Origin) : SourceSpan :=
  unionSpan (origin.positions.map fun i => spans.getD i ⟨0, 0⟩)

lemma Origin.span_join (spans : List SourceSpan) (a b : Origin) :
    (a.join b).span spans = unionTwo (a.span spans) (b.span spans) := by
  rw [span, join, List.map_append]
  exact unionSpan_append (mt List.map_eq_nil_iff.mp a.ne_nil) (mt List.map_eq_nil_iff.mp b.ne_nil)

/-- The decomposed characters of a text, with the positions that they come from. -/
def originUnits (data : NfcData) (input : List Char) : List (NfcUnit Origin) :=
  input.zipIdx.flatMap fun p => decompose data p.1 ⟨[p.2], List.cons_ne_nil _ _⟩

/-- The unit with another span. -/
def mapSpan {T : Type} (f : S → T) (unit : NfcUnit S) : NfcUnit T := ⟨unit.ch, f unit.span⟩

/-- The state with other spans. -/
def mapState {T : Type} (f : S → T) (st : ComposeState S) : ComposeState T :=
  { st with output := st.output.map (mapSpan f) }

section

variable {T : Type} {f : S → T} {union' : T → T → T}

lemma decompose_map (ch : Char) (span : S) :
    (decompose data ch span).map (mapSpan f) = decompose data ch (f span) :=
  List.map_map

lemma swap_map (units : List (NfcUnit S)) (i j : ℕ) :
    swap (units.map (mapSpan f)) i j = (swap units i j).map (List.map (mapSpan f)) := by
  rw [swap, swap, List.getElem?_map, List.getElem?_map]
  cases units[i]? with
  | none => rfl
  | some a =>
      cases units[j]? with
      | none => rfl
      | some b =>
          have hset : ((units.map (mapSpan f)).set i (mapSpan f b)).set j (mapSpan f a) =
              ((units.set i b).set j a).map (mapSpan f) := by rw [List.map_set, List.map_set]
          exact congrArg some hset

lemma bubble_map (ccc position : ℕ) (units : List (NfcUnit S)) :
    bubble data ccc position (units.map (mapSpan f)) =
      (bubble data ccc position units).map (List.map (mapSpan f)) := by
  induction position generalizing units with
  | zero => rfl
  | succ position ih =>
      rw [bubble, bubble, List.getElem?_map]
      cases units[position]? with
      | none => rfl
      | some previous =>
          dsimp only [Option.map_some, Option.bind_eq_bind, Option.bind_some]
          have hclass : classOf data (mapSpan f previous) = classOf data previous := rfl
          rw [hclass, swap_map]
          split_ifs
          · rfl
          · cases swap units position (position + 1) with
            | none => rfl
            | some units' => exact ih units'

lemma reorder_map (units : List (NfcUnit S)) :
    reorder data (units.map (mapSpan f)) = (reorder data units).map (List.map (mapSpan f)) := by
  have hstep : ∀ (units : List (NfcUnit S)) (index : ℕ),
      reorderStep data (units.map (mapSpan f)) index =
        (reorderStep data units index).map (List.map (mapSpan f)) := by
    intro units index
    rw [reorderStep, reorderStep, List.getElem?_map]
    cases units[index]? with
    | none => rfl
    | some c =>
        dsimp only [Option.map_some, Option.bind_eq_bind, Option.bind_some]
        have hclass : classOf data (mapSpan f c) = classOf data c := rfl
        rw [hclass, bubble_map]
        split_ifs <;> rfl
  rw [reorder, reorder, List.length_map]
  generalize List.range' 1 (units.length - 1) = indices
  induction indices generalizing units with
  | nil => rfl
  | cons index indices ih =>
      rw [List.foldlM_cons, List.foldlM_cons, hstep]
      cases reorderStep data units index with
      | none => rfl
      | some units' => exact ih units'

lemma composite_map (hf : ∀ a b, f (union a b) = union' (f a) (f b)) (st : ComposeState S)
    (c : NfcUnit S) :
    composite data union' (mapState f st) (mapSpan f c) =
      (composite data union st c).map fun p => (p.1, mapSpan f p.2) := by
  rw [composite, composite, mapState]
  cases st.starterIndex with
  | none => rfl
  | some index =>
      have hclass : classOf data (mapSpan f c) = classOf data c := rfl
      dsimp only [Option.bind_eq_bind, Option.bind_some]
      rw [hclass, List.getElem?_map]
      split_ifs
      · cases st.output[index]? with
        | none => rfl
        | some starter =>
            have hch : composePair data (mapSpan f starter).ch (mapSpan f c).ch =
                composePair data starter.ch c.ch := rfl
            rw [Option.map_some, Option.bind_some, Option.bind_some, hch]
            cases composePair data starter.ch c.ch with
            | none => rfl
            | some ch =>
                have hspan : union' (f starter.span) (f c.span) = f (union starter.span c.span) :=
                  (hf _ _).symm
                exact congrArg (fun span => some (index, (⟨ch, span⟩ : NfcUnit T))) hspan
      · rfl

lemma composeUnits_map (hf : ∀ a b, f (union a b) = union' (f a) (f b))
    (units : List (NfcUnit S)) :
    composeUnits data union' (units.map (mapSpan f)) =
      (composeUnits data union units).map (mapSpan f) := by
  have hstep : ∀ (st : ComposeState S) (c : NfcUnit S),
      composeStep data union' (mapState f st) (mapSpan f c) =
        mapState f (composeStep data union st c) := by
    intro st c
    rw [composeStep, composeStep, composite_map hf]
    cases composite data union st c with
    | none =>
        dsimp only [Option.map_none, mapState]
        rw [List.map_append, List.map_singleton, List.length_map]
        rfl
    | some p =>
        dsimp only [Option.map_some, mapState]
        rw [List.map_set]
  have hrun : units.foldl (fun st c => composeStep data union' st (mapSpan f c))
      (mapState f ⟨[], none, 0⟩) = mapState f (units.foldl (composeStep data union) ⟨[], none, 0⟩) :=
    List.foldl_hom (mapState f) hstep
  rw [composeUnits, composeUnits, List.foldl_map]
  exact congrArg ComposeState.output hrun

end

lemma charSpans_returns (input : List Char) (byteSpans : List SourceSpan)
    (hlen : byteSpans.length = (input.map Char.utf8Size).sum) :
    ∃ spans, charSpans input byteSpans = some spans ∧ spans.length = input.length := by
  induction input generalizing byteSpans with
  | nil => exact ⟨[], rfl, rfl⟩
  | cons ch rest ih =>
      rw [List.map_cons, List.sum_cons] at hlen
      obtain ⟨spans, hspans, hlength⟩ := ih (byteSpans.drop ch.utf8Size)
        (by rw [List.length_drop, hlen, Nat.add_sub_cancel_left])
      refine ⟨unionSpan (byteSpans.take ch.utf8Size) :: spans, ?_, congrArg (· + 1) hlength⟩
      rw [charSpans, if_pos (by omega), hspans, Option.map_some]

/-- The decomposed characters, with the spans that their origins have. -/
lemma map_originUnits {input : List Char} {spans : List SourceSpan}
    (hlength : spans.length = input.length) :
    (originUnits data input).map (mapSpan (Origin.span spans)) =
      (input.zip spans).flatMap fun p => decompose data p.1 p.2 := by
  have hzip : input.zip spans =
      input.zipIdx.map fun p => (p.1, Origin.span spans ⟨[p.2], List.cons_ne_nil _ _⟩) := by
    refine List.ext_getElem (by simp [hlength]) fun i hi _ => ?_
    have hi' : i < spans.length := by
      rw [List.length_zip] at hi
      omega
    simp [Origin.span, unionSpan, hi']
  rw [hzip, List.flatMap_map, originUnits, List.map_flatMap]
  exact List.flatMap_congr fun p _ => decompose_map p.1 _

lemma map_originUnits_const {S : Type} (span : S) (input : List Char) :
    (originUnits data input).map (mapSpan fun _ => span) =
      input.flatMap fun ch => decompose data ch span := by
  have hinput : input = input.zipIdx.map Prod.fst := List.zipIdx_map_fst _ _ |>.symm
  conv_rhs => rw [hinput, List.flatMap_map]
  rw [originUnits, List.map_flatMap]
  exact List.flatMap_congr fun p _ => decompose_map p.1 _

lemma encodeUnits_length (units : List (NfcUnit S)) :
    (encodeUnits units).2.length = ((encodeUnits units).1.map Char.utf8Size).sum := by
  induction units with
  | nil => rfl
  | cons unit units ih =>
      rw [encodeUnits] at ih ⊢
      simp only [List.flatMap_cons, List.length_append, List.length_replicate, List.map_cons,
        List.sum_cons, ih]

/-- The text and the spans are those of the composed characters: each byte has the union of the
spans of the characters that its own comes from. -/
def Provenance (data : NfcData) (input : List Char) (byteSpans : List SourceSpan)
    (text : List Char) (spans : List SourceSpan) : Prop :=
  ∃ ofChar sorted, charSpans input byteSpans = some ofChar ∧
    reorder data (originUnits data input) = some sorted ∧
    text = (canonicalCompose data Origin.join sorted).map NfcUnit.ch ∧
    spans = (canonicalCompose data Origin.join sorted).flatMap fun unit =>
      List.replicate unit.ch.utf8Size (unit.span.span ofChar)

/-- Both ways of normalizing a text that is not normalized. -/
lemma provenance (data : NfcData) (input : List Char) (byteSpans : List SourceSpan)
    (hlen : byteSpans.length = (input.map Char.utf8Size).sum) :
    ∃ text spans, normalizeSlow data input = some text ∧
      Provenance data input byteSpans text spans ∧
      spans.length = (text.map Char.utf8Size).sum ∧
      (isNormalized data input = some false →
        normalizeWithSpans data input byteSpans = some (text, spans)) := by
  obtain ⟨ofChar, hofChar, hlength⟩ := charSpans_returns input byteSpans hlen
  obtain ⟨sorted, hsorted, horder⟩ := reorder_eq data (originUnits data input)
  have hspan : composeUnits data unionTwo (sorted.map (mapSpan (Origin.span ofChar))) =
      (composeUnits data Origin.join sorted).map (mapSpan (Origin.span ofChar)) :=
    composeUnits_map (Origin.span_join ofChar) sorted
  have hconst : composeUnits data unionTwo (sorted.map (mapSpan fun _ => ⟨0, 0⟩)) =
      (composeUnits data Origin.join sorted).map (mapSpan fun _ => ⟨0, 0⟩) :=
    composeUnits_map (fun _ _ => rfl) sorted
  rw [composeUnits_eq Origin.join horder] at hspan hconst
  refine ⟨_, _, ?_, ⟨ofChar, sorted, hofChar, hsorted, rfl, rfl⟩, ?_, fun hnot => ?_⟩
  · rw [normalizeSlow, ← map_originUnits_const, reorder_map, hsorted, Option.map_some,
      Option.bind_eq_bind, Option.bind_some, hconst, List.map_map]
    rfl
  · have hencode := encodeUnits_length
      ((canonicalCompose data Origin.join sorted).map (mapSpan (Origin.span ofChar)))
    rw [encodeUnits, List.map_map, List.flatMap_map] at hencode
    exact hencode
  · have hreorder : reorder data ((input.zip ofChar).flatMap fun p => decompose data p.1 p.2) =
        some (sorted.map (mapSpan (Origin.span ofChar))) := by
      rw [← map_originUnits hlength, reorder_map, hsorted, Option.map_some]
    rw [normalizeWithSpans, hnot, Option.bind_eq_bind, Option.bind_some,
      if_neg Bool.false_ne_true, hofChar, Option.bind_eq_bind, Option.bind_some]
    change (reorder data _).bind _ = _
    rw [hreorder, Option.bind_some, hspan, encodeUnits, List.map_map, List.flatMap_map]
    rfl

/-- `is_normalized` tells whether `normalize_to` changes the text. -/
lemma isNormalized_cases {input text : List Char} (hslow : normalizeSlow data input = some text) :
    isNormalized data input = some true ∧ normalizeTo data input = some input ∨
      isNormalized data input = some false ∧ normalizeTo data input = some text := by
  rw [isNormalized, normalizeTo, hslow, Option.map_some]
  cases quickCheck data input with
  | yes => exact .inl ⟨rfl, rfl⟩
  | no => exact .inr ⟨rfl, rfl⟩
  | maybe =>
      by_cases htext : text = input
      · exact .inl ⟨congrArg some (decide_eq_true htext), congrArg some htext⟩
      · exact .inr ⟨congrArg some (decide_eq_false htext), rfl⟩

/-- The engine on any tables. `reorder` sorts, `compose_units` composes, and the text of
`normalize_with_spans` is that of `normalize_to`, with one span for each byte. A text that is
normalized keeps its spans; otherwise each is the union of the spans of the characters that
contributed. -/
theorem normalizeWithSpans_correct (data : NfcData) (input : List Char)
    (byteSpans : List SourceSpan) (hlen : byteSpans.length = (input.map Char.utf8Size).sum) :
    (∀ (S : Type) (units : List (NfcUnit S)),
      ∃ out, reorder data units = some out ∧ Reordered data units out) ∧
    (∀ (S : Type) (union : S → S → S) (units out : List (NfcUnit S)),
      reorder data units = some out →
        composeUnits data union out = canonicalCompose data union out) ∧
    ∃ text spans, normalizeTo data input = some text ∧
      normalizeWithSpans data input byteSpans = some (text, spans) ∧
      spans.length = (text.map Char.utf8Size).sum ∧
      (isNormalized data input = some true ∧ text = input ∧ spans = byteSpans ∨
        isNormalized data input = some false ∧ Provenance data input byteSpans text spans) := by
  refine ⟨fun _ units => reorder_eq data units, ?_, ?_⟩
  · intro S union units out h
    obtain ⟨out', hout', horder⟩ := reorder_eq data units
    cases hout'.symm.trans h
    exact composeUnits_eq union horder
  · obtain ⟨text, spans, hslow, hprovenance, hlength, hwith⟩ :=
      provenance data input byteSpans hlen
    rcases isNormalized_cases hslow with ⟨hyes, hto⟩ | ⟨hno, hto⟩
    · refine ⟨input, byteSpans, hto, ?_, hlen, .inl ⟨hyes, rfl, rfl⟩⟩
      rw [normalizeWithSpans, hyes]
      rfl
    · exact ⟨text, spans, hto, hwith hno, hlength, .inr ⟨hno, hprovenance⟩⟩

/-- Tables with `é` alone. -/
def acuteData : NfcData where
  combiningClass ch := if ch = '\u0301' then 230 else 0
  singletonDecomposition _ := none
  pairDecomposition ch := if ch = 'é' then some ('e', '\u0301') else none
  composition first second := if first = 'e' ∧ second = '\u0301' then some 'é' else none
  quickCheckNo _ := false
  quickCheckMaybe ch := ch = '\u0301'
  depth ch := if ch = 'é' then 1 else 0
  singleton_depth := fun _ _ h => absurd h.symm (Option.some_ne_none _)
  pair_depth := by
    intro c d e h
    by_cases hc : c = 'é'
    · rw [if_pos hc] at h ⊢
      cases h
      decide
    · rw [if_neg hc] at h
      cases h

theorem normalizeWithSpans_correct_acute :
    ∃ text spans, normalizeTo acuteData ['e', '\u0301'] = some text ∧
      normalizeWithSpans acuteData ['e', '\u0301'] [⟨0, 1⟩, ⟨1, 2⟩, ⟨2, 3⟩] =
        some (text, spans) ∧
      spans.length = (text.map Char.utf8Size).sum ∧
      (isNormalized acuteData ['e', '\u0301'] = some true ∧ text = ['e', '\u0301'] ∧
        spans = [⟨0, 1⟩, ⟨1, 2⟩, ⟨2, 3⟩] ∨
        isNormalized acuteData ['e', '\u0301'] = some false ∧
          Provenance acuteData ['e', '\u0301'] [⟨0, 1⟩, ⟨1, 2⟩, ⟨2, 3⟩] text spans) :=
  (normalizeWithSpans_correct acuteData ['e', '\u0301'] [⟨0, 1⟩, ⟨1, 2⟩, ⟨2, 3⟩]
    (by decide)).2.2

/-- A text that is normalized keeps a span for each byte: those of `é` are not united. -/
theorem normalizeWithSpans_keeps_bytes :
    ¬ ∀ (data : NfcData) (input : List Char) (byteSpans : List SourceSpan),
      byteSpans.length = (input.map Char.utf8Size).sum →
      ∃ text spans, normalizeWithSpans data input byteSpans = some (text, spans) ∧
        Provenance data input byteSpans text spans := by
  intro h
  obtain ⟨text, spans, hwith, ofChar, sorted, hofChar, hsorted, -, hspans⟩ :=
    h acuteData ['é'] [⟨0, 1⟩, ⟨1, 2⟩] (by decide)
  have hresult : normalizeWithSpans acuteData ['é'] [⟨0, 1⟩, ⟨1, 2⟩] =
      some (['é'], [⟨0, 1⟩, ⟨1, 2⟩]) := by decide +kernel
  have hunion : charSpans ['é'] [⟨0, 1⟩, ⟨1, 2⟩] = some [⟨0, 2⟩] := by decide +kernel
  have hunits : reorder acuteData (originUnits acuteData ['é']) =
      some [⟨'e', ⟨[0], by decide⟩⟩, ⟨'\u0301', ⟨[0], by decide⟩⟩] := by decide +kernel
  cases hresult.symm.trans hwith
  cases hunion.symm.trans hofChar
  cases hunits.symm.trans hsorted
  exact absurd hspans (by decide +kernel)

end Nfc

end Hypertok
