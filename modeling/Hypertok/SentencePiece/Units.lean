import Hypertok.Machine.Cuts
import Hypertok.SentencePiece.Model

/-!
The unit scanner, `encode_units_impl`. It reads bytes; what it cuts is a text.

* `units`: the scan, from candidate to candidate.
* `byteBoundary`: whether a unit starts between two parts of the input.
* `units_eq_cut`: the units are the pieces between the boundaries.
-/

namespace Hypertok

namespace SentencePiece

open Machine

/-- `mark_width`. -/
def markWidth (bytes : List UInt8) (pos : ℕ) (raw : Bool) : Option ℕ :=
  match bytes[pos]? with
  | Option.none => Option.none
  | some b =>
      if raw ∧ b = 32 then some 1
      else if b = 0xE2 ∧ bytes[pos + 1]? = some 0x96 ∧ bytes[pos + 2]? = some 0x81 then some 3
      else Option.none

/-- The variables of the scan, and the units that are closed. Before any mark, `last_mark_end` is
`usize::MAX`, which no position is. -/
structure ScanState where
  unitStart : ℕ
  lastMarkEnd : Option ℕ
  units : List (List UInt8)

/-- The unit up to `pos` is closed. -/
def ScanState.close (st : ScanState) (bytes : List UInt8) (pos : ℕ) : ScanState :=
  { st with unitStart := pos, units := st.units ++ [(bytes.take pos).drop st.unitStart] }

namespace SentencePieceBPE

variable (model : SentencePieceBPE) (raw : Bool)

/-- `piece_spans_boundary`. -/
def pieceSpansBoundary (bytes : List UInt8) (markPos width : ℕ) : Bool :=
  match bytes[markPos - 1]? with
  | Option.none => false
  | some prev =>
      model.crossPrev prev && model.crossPieces.any fun piece =>
        piece.pre.isSuffixOf (bytes.take markPos) && piece.post.isPrefixOf (bytes.drop (markPos + width))

/-- The test of `candidate_mask_scalar`. -/
def isCandidate (b : UInt8) : Bool := b = 0xE2 || raw && b = 32 || model.splitBytes.contains b

/-- The positions of the candidates. The masks of 32 bytes, each drained from its lowest bit, give
them in this order. -/
def candidates (bytes : List UInt8) : List ℕ :=
  (List.range bytes.length).filter fun pos => bytes[pos]?.any (model.isCandidate raw)

/-- The scan at a mark. -/
def scanMark (bytes : List UInt8) (st : ScanState) (pos width : ℕ) : ScanState :=
  let boundary := model.wordSplit = .everyMark ∨ st.lastMarkEnd ≠ some pos
  let st := if boundary ∧ pos ≠ st.unitStart ∧ ¬ model.pieceSpansBoundary bytes pos width then
      st.close bytes pos
    else st
  { st with lastMarkEnd := some (pos + width) }

/-- The byte before a candidate, where a space stands for the mark. -/
def prevByte (bytes : List UInt8) (pos : ℕ) : Option UInt8 :=
  bytes[pos - 1]?.map fun prev => if raw ∧ prev = 32 then 0x81 else prev

/-- The scan at a candidate. -/
def scanCandidate (bytes : List UInt8) (st : ScanState) (pos : ℕ) : ScanState :=
  match bytes[pos]? with
  | Option.none => st
  | some b =>
      if raw ∧ b = 32 ∨ b = 0xE2 then
        match markWidth bytes pos raw with
        | Option.none => st
        | some width => model.scanMark bytes st pos width
      else if pos ≠ st.unitStart ∧ (prevByte raw bytes pos).any (model.splitSafe b) then
        st.close bytes pos
      else st

/-- The units of `encode_units_impl`. -/
def units (bytes : List UInt8) : List (List UInt8) :=
  let st := (model.candidates raw bytes).foldl (model.scanCandidate raw bytes) ⟨0, Option.none, []⟩
  if st.unitStart < bytes.length then st.units ++ [bytes.drop st.unitStart] else st.units

end SentencePieceBPE

/-! ### The cuts between bytes -/

/-- The bytes end with a mark. -/
def endsWithMark (raw : Bool) (front : List UInt8) : Bool :=
  raw && front.getLast? = some 32 || spMark.isSuffixOf front

namespace SentencePieceBPE

/-- Whether the scan closes a unit behind `front`. -/
def byteBoundary (model : SentencePieceBPE) (raw : Bool) (front back : List UInt8) : Bool :=
  match back with
  | [] => false
  | b :: _ =>
      if raw ∧ b = 32 ∨ b = 0xE2 then
        match markWidth (front ++ back) front.length raw with
        | Option.none => false
        | some width => (model.wordSplit = .everyMark || !endsWithMark raw front) &&
            !model.pieceSpansBoundary (front ++ back) front.length width
      else model.splitBytes.contains b &&
        (prevByte raw (front ++ back) front.length).any (model.splitSafe b)

end SentencePieceBPE

section

variable {bytes : List UInt8} {pos width : ℕ} {raw : Bool}

lemma markWidth_eq_some :
    markWidth bytes pos raw = some width ↔ raw = true ∧ bytes[pos]? = some 32 ∧ width = 1 ∨
      bytes[pos]? = some 0xE2 ∧ bytes[pos + 1]? = some 0x96 ∧ bytes[pos + 2]? = some 0x81 ∧
        width = 3 := by
  rw [markWidth]
  cases bytes[pos]? with
  | none => simp
  | some b =>
      dsimp only
      split_ifs with hspace hmark
      · obtain ⟨rfl, rfl⟩ := hspace
        simp [eq_comm]
      · obtain ⟨rfl, h₁, h₂⟩ := hmark
        simp [h₁, h₂, eq_comm]
      · simp only [Option.some_inj, false_iff]
        rintro (⟨hraw, hb, -⟩ | ⟨hb, h₁, h₂, -⟩)
        · exact hspace ⟨hraw, hb⟩
        · exact hmark ⟨hb, h₁, h₂⟩

lemma width_pos (h : markWidth bytes pos raw = some width) : 0 < width := by
  obtain ⟨-, -, rfl⟩ | ⟨-, -, -, rfl⟩ := markWidth_eq_some.mp h <;> decide

/-- No mark starts inside a mark. -/
lemma markWidth_inside (h : markWidth bytes pos raw = some width) {q : ℕ} (hpos : pos < q)
    (hq : q < pos + width) : markWidth bytes q raw = Option.none := by
  obtain ⟨-, -, rfl⟩ | ⟨-, h₁, h₂, rfl⟩ := markWidth_eq_some.mp h
  · omega
  · obtain rfl | rfl : q = pos + 1 ∨ q = pos + 2 := by omega
    · rw [markWidth, h₁]
      simp
    · rw [markWidth, h₂]
      simp

lemma endsWithMark_iff (hpos : pos ≤ bytes.length) :
    endsWithMark raw (bytes.take pos) = true ↔
      ∃ q w, markWidth bytes q raw = some w ∧ q + w = pos := by
  simp only [endsWithMark, Bool.or_eq_true, Bool.and_eq_true, decide_eq_true_eq,
    List.isSuffixOf_iff_suffix]
  constructor
  · rintro (⟨hraw, hlast⟩ | ⟨front, hfront⟩)
    · cases pos with
      | zero => simp at hlast
      | succ q =>
          have hq : (bytes.take (q + 1)).getLast? = bytes[q]? := by
            rw [List.getLast?_take, if_neg q.succ_ne_zero, Nat.add_sub_cancel,
              List.getElem?_eq_getElem hpos, Option.some_or]
          exact ⟨q, 1, markWidth_eq_some.mpr (.inl ⟨hraw, hq ▸ hlast, rfl⟩), rfl⟩
    · have hlen := congrArg List.length hfront
      rw [List.length_append, List.length_take_of_le hpos] at hlen
      have hget : ∀ k < 3, bytes[front.length + k]? = spMark[k]? := by
        intro k hk
        have hlt : front.length + k < pos := hlen ▸ Nat.add_lt_add_left hk _
        rw [← List.getElem?_take_of_lt hlt, ← hfront,
          List.getElem?_append_right (Nat.le_add_right _ _), Nat.add_sub_cancel_left]
      exact ⟨front.length, 3, markWidth_eq_some.mpr (.inr ⟨hget 0 (by decide), hget 1 (by decide),
        hget 2 (by decide), rfl⟩), hlen⟩
  · rintro ⟨q, w, hw, rfl⟩
    obtain ⟨hraw, hq, rfl⟩ | ⟨h₀, h₁, h₂, rfl⟩ := markWidth_eq_some.mp hw
    · rw [List.getLast?_take, if_neg q.succ_ne_zero, Nat.add_sub_cancel, hq]
      exact .inl ⟨hraw, rfl⟩
    · refine .inr ⟨bytes.take q, ?_⟩
      rw [List.take_add_one, List.take_add_one, List.take_add_one, h₀, h₁, h₂]
      simp [spMark]

/-- The end of the last mark that starts before `pos`. -/
def LastMark (raw : Bool) (bytes : List UInt8) (pos : ℕ) : Option ℕ → Prop
  | Option.none => ∀ q < pos, markWidth bytes q raw = Option.none
  | some e => ∃ q w, q < pos ∧ markWidth bytes q raw = some w ∧ e = q + w ∧
      ∀ q', q < q' → q' < pos → markWidth bytes q' raw = Option.none

namespace LastMark

variable {e : Option ℕ}

/-- A mark extends a run if the last one ends there. -/
lemma eq_some_iff (h : LastMark raw bytes pos e) (hpos : pos ≤ bytes.length) :
    e = some pos ↔ endsWithMark raw (bytes.take pos) = true := by
  rw [endsWithMark_iff hpos]
  cases e with
  | none =>
      refine iff_of_false (Option.some_ne_none pos).symm ?_
      rintro ⟨q, w, hw, hq⟩
      have := width_pos hw
      rw [h q (by omega)] at hw
      cases hw
  | some e =>
      obtain ⟨q, w, hlt, hw, rfl, hbetween⟩ := h
      rw [Option.some_inj]
      refine ⟨fun heq => ⟨q, w, hw, heq⟩, ?_⟩
      rintro ⟨q', w', hw', rfl⟩
      have := width_pos hw'
      obtain hq | rfl | hq := lt_trichotomy q q'
      · rw [hbetween q' hq (by omega)] at hw'
        cases hw'
      · rw [Option.some_inj.mp (hw.symm.trans hw')]
      · rw [markWidth_inside hw' hq hlt] at hw
        cases hw

lemma succ_of_none (h : LastMark raw bytes pos e) (hnone : markWidth bytes pos raw = Option.none) :
    LastMark raw bytes (pos + 1) e := by
  cases e with
  | none =>
      intro q hq
      obtain hlt | rfl := Nat.lt_succ_iff_lt_or_eq.mp hq
      · exact h q hlt
      · exact hnone
  | some e =>
      obtain ⟨q, w, hlt, hw, rfl, hbetween⟩ := h
      refine ⟨q, w, hlt.trans (Nat.lt_succ_self _), hw, rfl, fun q' hq hq' => ?_⟩
      obtain hlt' | rfl := Nat.lt_succ_iff_lt_or_eq.mp hq'
      · exact hbetween q' hq hlt'
      · exact hnone

lemma succ_of_mark (h : markWidth bytes pos raw = some width) :
    LastMark raw bytes (pos + 1) (some (pos + width)) :=
  ⟨pos, width, Nat.lt_succ_self pos, h, rfl, fun q' hq hq' => by omega⟩

end LastMark

namespace SentencePieceBPE

variable {model : SentencePieceBPE} {b : UInt8} {st st' : ScanState}

lemma byteBoundary_eq (hb : bytes[pos]? = some b) :
    model.byteBoundary raw (bytes.take pos) (bytes.drop pos) =
      if raw ∧ b = 32 ∨ b = 0xE2 then
        match markWidth bytes pos raw with
        | Option.none => false
        | some width => (model.wordSplit = .everyMark || !endsWithMark raw (bytes.take pos)) &&
            !model.pieceSpansBoundary bytes pos width
      else model.splitBytes.contains b && (prevByte raw bytes pos).any (model.splitSafe b) := by
  obtain ⟨hlt, hget⟩ := List.getElem?_eq_some_iff.mp hb
  have hdrop : bytes.drop pos = b :: bytes.drop (pos + 1) := by
    rw [List.drop_eq_getElem_cons hlt, hget]
  have hwhole : bytes.take pos ++ b :: bytes.drop (pos + 1) = bytes := by
    rw [← hdrop, List.take_append_drop]
  rw [hdrop, byteBoundary, hwhole, List.length_take_of_le hlt.le]

/-- The scan has passed the positions before `pos`. -/
structure Scanned (model : SentencePieceBPE) (raw : Bool) (bytes : List UInt8) (pos : ℕ)
    (st : ScanState) : Prop where
  start_le : st.unitStart ≤ pos
  start_lt : pos ≠ 0 → st.unitStart < pos
  last : LastMark raw bytes pos st.lastMarkEnd
  pieces : st.units ++ cutFrom (model.byteBoundary raw) (bytes.take pos)
    ((bytes.take pos).drop st.unitStart) (bytes.drop pos) = cut (model.byteBoundary raw) bytes

lemma Scanned.zero : Scanned model raw bytes 0 ⟨0, Option.none, []⟩ where
  start_le := le_rfl
  start_lt h := absurd rfl h
  last q hq := absurd hq (Nat.not_lt_zero q)
  pieces := rfl

/-- One position is passed; the unit is closed at a boundary. -/
lemma Scanned.succ (h : Scanned model raw bytes pos st) (hb : bytes[pos]? = some b)
    (hlast : LastMark raw bytes (pos + 1) st'.lastMarkEnd)
    (hclose : pos ≠ st.unitStart ∧
        model.byteBoundary raw (bytes.take pos) (bytes.drop pos) = true ∧
        st'.unitStart = pos ∧ st'.units = st.units ++ [(bytes.take pos).drop st.unitStart] ∨
      (pos ≠ st.unitStart →
        model.byteBoundary raw (bytes.take pos) (bytes.drop pos) = false) ∧
        st'.unitStart = st.unitStart ∧ st'.units = st.units) :
    Scanned model raw bytes (pos + 1) st' := by
  obtain ⟨hlt, hget⟩ := List.getElem?_eq_some_iff.mp hb
  have hdrop : bytes.drop pos = b :: bytes.drop (pos + 1) := by
    rw [List.drop_eq_getElem_cons hlt, hget]
  have htake : bytes.take (pos + 1) = bytes.take pos ++ [b] := by
    rw [List.take_add_one, hb]
    rfl
  have hlen := List.length_take_of_le hlt.le
  have hstart := h.start_le
  have hpiece : (bytes.take pos).drop st.unitStart = [] ↔ pos = st.unitStart := by
    rw [List.drop_eq_nil_iff, hlen]
    omega
  have hpieces := h.pieces
  obtain ⟨hne, hcut, hunit, hunits⟩ | ⟨hnot, hunit, hunits⟩ := hclose
  · refine ⟨by omega, fun _ => by omega, hlast, ?_⟩
    rw [hdrop] at hcut hpieces
    rw [cutFrom_cons_of_cut (mt hpiece.mp hne) hcut] at hpieces
    rw [hunit, hunits, ← hpieces, htake, List.drop_append_of_le_length hlen.ge,
      List.drop_of_length_le hlen.le, List.append_assoc]
    rfl
  · refine ⟨by omega, fun _ => by omega, hlast, ?_⟩
    rw [hdrop] at hnot hpieces
    rw [cutFrom_cons_of_not fun hp => hnot (mt hpiece.mpr hp)] at hpieces
    rw [hunit, hunits, ← hpieces, htake, List.drop_append_of_le_length (by omega)]

/-- The turn of the scan at a position: nothing happens if it is no candidate. -/
lemma Scanned.turn (h : Scanned model raw bytes pos st) (hb : bytes[pos]? = some b) :
    Scanned model raw bytes (pos + 1)
      (if bytes[pos]?.any (model.isCandidate raw) then model.scanCandidate raw bytes st pos
        else st) := by
  have hboundary := @byteBoundary_eq _ _ raw model _ hb
  have hpos := (List.getElem?_eq_some_iff.mp hb).1.le
  have hmark : ¬ (raw = true ∧ b = 32 ∨ b = 0xE2) → markWidth bytes pos raw = Option.none := by
    intro hnot
    rw [Option.eq_none_iff_forall_ne_some]
    intro width hw
    obtain ⟨hraw, hspace, -⟩ | ⟨hlead, -⟩ := markWidth_eq_some.mp hw
    · exact hnot (.inl ⟨hraw, Option.some_inj.mp (hb.symm.trans hspace)⟩)
    · exact hnot (.inr (Option.some_inj.mp (hb.symm.trans hlead)))
  rw [hb, Option.any_some]
  by_cases hcand : model.isCandidate raw b = true
  · rw [if_pos hcand, scanCandidate, hb]
    dsimp only
    by_cases hlead : raw = true ∧ b = 32 ∨ b = 0xE2
    · rw [if_pos hlead] at hboundary ⊢
      cases hw : markWidth bytes pos raw with
      | none =>
          rw [hw] at hboundary
          exact h.succ hb (h.last.succ_of_none hw) (.inr ⟨fun _ => hboundary, rfl, rfl⟩)
      | some width =>
          rw [hw] at hboundary
          have hiff : model.byteBoundary raw (bytes.take pos) (bytes.drop pos) = true ↔
              (model.wordSplit = .everyMark ∨ st.lastMarkEnd ≠ some pos) ∧
                ¬ model.pieceSpansBoundary bytes pos width = true := by
            rw [hboundary, ne_eq, h.last.eq_some_iff hpos]
            simp
          have hnext := LastMark.succ_of_mark hw
          dsimp only
          rw [scanMark]
          by_cases hclose : (model.wordSplit = .everyMark ∨ st.lastMarkEnd ≠ some pos) ∧
              pos ≠ st.unitStart ∧ ¬ model.pieceSpansBoundary bytes pos width = true
          · rw [if_pos hclose]
            exact h.succ hb hnext
              (.inl ⟨hclose.2.1, hiff.mpr ⟨hclose.1, hclose.2.2⟩, rfl, rfl⟩)
          · rw [if_neg hclose]
            refine h.succ hb hnext (.inr ⟨fun hne => Bool.eq_false_iff.mpr fun hcut => ?_, rfl, rfl⟩)
            obtain ⟨hrun, hspans⟩ := hiff.mp hcut
            exact hclose ⟨hrun, hne, hspans⟩
    · have hlast := h.last.succ_of_none (hmark hlead)
      have hsplit : model.splitBytes.contains b = true := by
        rw [isCandidate, Bool.or_eq_true, Bool.or_eq_true, Bool.and_eq_true, decide_eq_true_eq,
          decide_eq_true_eq] at hcand
        tauto
      rw [if_neg hlead, hsplit, Bool.true_and] at hboundary
      rw [if_neg hlead]
      by_cases hclose : pos ≠ st.unitStart ∧
          (prevByte raw bytes pos).any (model.splitSafe b) = true
      · rw [if_pos hclose]
        exact h.succ hb hlast (.inl ⟨hclose.1, hboundary.trans hclose.2, rfl, rfl⟩)
      · rw [if_neg hclose]
        refine h.succ hb hlast (.inr ⟨fun hne => ?_, rfl, rfl⟩)
        exact hboundary.trans (Bool.eq_false_iff.mpr fun hsafe => hclose ⟨hne, hsafe⟩)
  · have hsplit : model.splitBytes.contains b = false ∧ ¬ (raw = true ∧ b = 32 ∨ b = 0xE2) := by
      rw [isCandidate, Bool.or_eq_true, Bool.or_eq_true, Bool.and_eq_true, decide_eq_true_eq,
        decide_eq_true_eq, not_or, Bool.not_eq_true] at hcand
      tauto
    rw [if_neg hsplit.2, hsplit.1, Bool.false_and] at hboundary
    rw [if_neg hcand]
    exact h.succ hb (h.last.succ_of_none (hmark hsplit.2)) (.inr ⟨fun _ => hboundary, rfl, rfl⟩)

/-- The units are the pieces between the boundaries. -/
lemma units_eq_cut (model : SentencePieceBPE) (raw : Bool) (bytes : List UInt8) :
    model.units raw bytes = cut (model.byteBoundary raw) bytes := by
  have hrun : ∀ n ≤ bytes.length, Scanned model raw bytes n ((List.range n).foldl
      (fun st pos => if bytes[pos]?.any (model.isCandidate raw) then
        model.scanCandidate raw bytes st pos else st) ⟨0, Option.none, []⟩) := by
    intro n hn
    induction n with
    | zero => exact .zero
    | succ n ih =>
        rw [List.range_succ, List.foldl_append, List.foldl_cons, List.foldl_nil]
        exact (ih (Nat.le_of_succ_le hn)).turn (List.getElem?_eq_getElem hn)
  have hfinal := hrun bytes.length le_rfl
  rw [← List.foldl_filter] at hfinal
  have hpieces := hfinal.pieces
  rw [List.take_length, List.drop_length] at hpieces
  rw [units, candidates, ← hpieces]
  generalize List.foldl _ _ _ = st
  by_cases hlast : st.unitStart < bytes.length
  · rw [if_pos hlast, cutFrom_nil (mt List.drop_eq_nil_iff.mp (Nat.not_le.mpr hlast))]
  · rw [if_neg hlast, List.drop_of_length_le (Nat.not_lt.mp hlast), cutFrom, List.append_nil]

end SentencePieceBPE

end

end SentencePiece

end Hypertok
