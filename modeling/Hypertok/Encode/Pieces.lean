import Hypertok.Cache.Stores
import Hypertok.Machine.Bytes
import Hypertok.Machine.Find
import Hypertok.Pretokenize.R50k
import Hypertok.SentencePiece.Model
import Hypertok.Text.Nfc
import Mathlib.Data.List.TakeWhile

/-!
The pieces of an input: the added tokens that it holds, and the segments between them.

* `Pipeline.pieces`: the walk over the input.
* `trimWsStart_at`, `trimWsEnd_text`: the whitespace that an added token absorbs, in a text.
* `pieceStep_none`, `pieceStep_some`: one turn of the walk, in a text.
-/

namespace Hypertok

open Machine

/-- `AddedTokenDef`. -/
structure StripToken extends AddedTokenDef where
  lstrip : Bool
  rstrip : Bool

/-- What the walk reads of a tokenizer. The added tokens are not empty. -/
structure Pipeline where
  addedTokens : List StripToken
  normalizeNfc : Bool
  addPrefixSpace : Bool
  content_ne : ∀ t ∈ addedTokens, t.content ≠ []

/-- `Piece`. -/
inductive Piece
  | segment (encoded source : List UInt8) (sourceStart : ℕ)
  | added (id : TokenId) (start stop : ℕ)
  deriving DecidableEq

/-! ### The code -/

/-- The width of a character, by its first byte. -/
def leadWidth (b : UInt8) : Option ℕ :=
  if b ≤ 0x7F then some 1
  else if 0xC0 ≤ b ∧ b ≤ 0xDF then some 2
  else if 0xE0 ≤ b ∧ b ≤ 0xEF then some 3
  else if 0xF0 ≤ b ∧ b ≤ 0xF7 then some 4
  else none

/-- Bytes that start with a whitespace character. -/
def startsWithSpace (bytes : List UInt8) : Bool :=
  (fromUtf8 bytes).any fun s => s.head?.any SentencePiece.isWhitespace

/-- The loop of `trim_ws_start`. -/
def trimWsStartFrom (bytes : List UInt8) : ℕ → ℕ → ℕ
  | 0, pos => pos
  | n + 1, pos =>
      match bytes[pos]?.bind leadWidth with
      | none => pos
      | some width =>
          if (getRange bytes pos (pos + width)).any startsWithSpace then
            trimWsStartFrom bytes n (pos + width)
          else pos

/-- `trim_ws_start`. -/
def trimWsStart (bytes : List UInt8) : ℕ := trimWsStartFrom bytes bytes.length 0

/-- The inner loop of `trim_ws_end`, back over continuation bytes, three at most. -/
def backUp (bytes : List UInt8) (stop : ℕ) : ℕ → ℕ
  | 0 => 0
  | start + 1 =>
      if bytes[start + 1]?.any (fun b => b &&& 0xC0 = 0x80) ∧ stop - (start + 1) < 4 then
        backUp bytes stop start
      else start + 1

/-- The loop of `trim_ws_end`. -/
def trimWsEndFrom (bytes : List UInt8) : ℕ → ℕ → ℕ
  | 0, stop => stop
  | n + 1, stop =>
      if stop = 0 then stop
      else
        let start := backUp bytes stop (stop - 1)
        if (getRange bytes start stop).any startsWithSpace then trimWsEndFrom bytes n start
        else stop

/-- `trim_ws_end`. -/
def trimWsEnd (bytes : List UInt8) : ℕ := trimWsEndFrom bytes bytes.length bytes.length

/-- `nfc_segment`. -/
def nfcSegment (data : NfcData) (seg : List UInt8) : Option (List UInt8) :=
  if seg.all (· < 0x80) then some seg
  else
    match fromUtf8 seg with
    | none => some seg
    | some s => do
        if ← Nfc.isNormalized data s then return seg
        return textBytes (← Nfc.normalizeTo data s)

namespace Pipeline

variable (p : Pipeline)

/-- `find_added_token`. -/
def findAddedToken (bytes : List UInt8) (pos : ℕ) : Option (ℕ × ℕ × StripToken) :=
  (findFirst (fun t : StripToken => t.content) p.addedTokens (bytes.drop pos)).map
    fun (gap, t, _) => (pos + gap.length, pos + gap.length + t.content.length, t)

/-- The segment as it is encoded. -/
def encodedSegment (data : NfcData) (source : List UInt8) : Option (List UInt8) := do
  let segment ← if p.normalizeNfc then nfcSegment data source else some source
  return if p.addPrefixSpace ∧ segment ≠ [] ∧ segment.head? ≠ some 0x20 then 0x20 :: segment
    else segment

/-- One turn of the loop of `for_each_piece`: its pieces, and where the next turn starts. -/
def pieceStep (data : NfcData) (bytes : List UInt8) (pos : ℕ) :
    Option (List Piece × Option ℕ) := do
  match p.findAddedToken bytes pos with
  | some (start, stop, t) =>
      let segEnd := if t.lstrip then pos + trimWsEnd ((bytes.take start).drop pos) else start
      let source := (bytes.take segEnd).drop pos
      let encoded ← p.encodedSegment data source
      let next := if t.rstrip then stop + trimWsStart (bytes.drop stop) else stop
      return ([.segment encoded source pos, .added t.id start stop], some next)
  | none =>
      let source := bytes.drop pos
      let encoded ← p.encodedSegment data source
      return ([.segment encoded source pos], none)

/-- The loop of `for_each_piece`, of so many turns at most. -/
def piecesFrom (data : NfcData) (bytes : List UInt8) : ℕ → ℕ → Option (List Piece)
  | 0, pos => if pos < bytes.length then none else some []
  | n + 1, pos =>
      if pos < bytes.length then do
        let (pieces, next) ← p.pieceStep data bytes pos
        match next with
        | none => return pieces
        | some pos => return pieces ++ (← piecesFrom data bytes n pos)
      else some []

/-- `for_each_piece`. -/
def pieces (data : NfcData) (bytes : List UInt8) : Option (List Piece) :=
  p.piecesFrom data bytes bytes.length 0

end Pipeline

/-! ### Whitespace in a text -/

lemma leadWidth_of_charAt {b : UInt8} {bs : List UInt8} {k : ℕ} (h : CharAt (b :: bs) k) :
    leadWidth b = some k := by
  cases h with
  | one hb =>
      simp only [UInt8.lt_iff_toNat_lt, UInt8.reduceToNat] at hb
      simp only [leadWidth, UInt8.le_iff_toNat_le, UInt8.reduceToNat]
      rw [if_pos (by omega)]
  | two hb hlt =>
      simp only [UInt8.lt_iff_toNat_lt, UInt8.le_iff_toNat_le, UInt8.reduceToNat] at hb hlt
      simp only [leadWidth, UInt8.le_iff_toNat_le, UInt8.reduceToNat]
      rw [if_neg (by omega), if_pos (by omega)]
  | three hb hlt =>
      simp only [UInt8.lt_iff_toNat_lt, UInt8.le_iff_toNat_le, UInt8.reduceToNat] at hb hlt
      simp only [leadWidth, UInt8.le_iff_toNat_le, UInt8.reduceToNat]
      rw [if_neg (by omega), if_neg (by omega), if_pos (by omega)]
  | @four _ b₁ _ _ _ hb hsecond =>
      have hle : b ≤ 0xF4 := by
        rw [isSecondOf4] at hsecond
        split_ifs at hsecond with hF0 hF4
        · rw [hF0]; decide
        · rw [hF4]; decide
        · have hlow := of_decide_eq_true (Bool.and_eq_true_iff.mp hsecond).1
          exact (UInt8.lt_iff_le_and_ne.mp hlow).1
      simp only [UInt8.le_iff_toNat_le, UInt8.reduceToNat] at hb hle
      simp only [leadWidth, UInt8.le_iff_toNat_le, UInt8.reduceToNat]
      rw [if_neg (by omega), if_neg (by omega), if_neg (by omega), if_pos (by omega)]

/-- The bytes of a character, in a text. -/
lemma At.getRange {bytes : List UInt8} {pos : ℕ} {c : Char} {t : List Char}
    (h : At bytes pos (c :: t)) :
    Machine.getRange bytes pos (pos + (String.utf8EncodeChar c).length) =
      some (String.utf8EncodeChar c) := by
  have hlen := h.length_eq
  rw [textBytes_cons, List.length_append] at hlen
  rw [getRange_of_le (by omega) (by omega), ← List.take_drop, h.drop_eq, textBytes_cons,
    List.take_left]

lemma startsWithSpace_char (c : Char) :
    startsWithSpace (String.utf8EncodeChar c) = SentencePiece.isWhitespace c := by
  have hread : fromUtf8 (String.utf8EncodeChar c) = some [c] := by
    have := fromUtf8_textBytes [c]
    rwa [textBytes_cons, textBytes_nil, List.append_nil] at this
  rw [startsWithSpace, hread]
  rfl

/-- The whitespace at the front of a text. -/
lemma trimWsStartFrom_at {bytes : List UInt8} {n pos : ℕ} {t : List Char} (h : At bytes pos t)
    (hn : t.length ≤ n) :
    At bytes (trimWsStartFrom bytes n pos) (t.dropWhile SentencePiece.isWhitespace) := by
  induction t generalizing n pos with
  | nil =>
      cases n with
      | zero => exact h
      | succ n =>
          rw [trimWsStartFrom, h.nil]
          exact h
  | cons c t ih =>
      cases n with
      | zero => cases hn
      | succ n =>
          have hwidth : bytes[pos]?.bind leadWidth = some (String.utf8EncodeChar c).length := by
            have hget := h.getElem? 0
            have hchar := charAt_utf8EncodeChar c (textBytes t)
            rw [textBytes_cons] at hget
            cases hbytes : String.utf8EncodeChar c ++ textBytes t with
            | nil =>
                have := length_utf8EncodeChar_pos c
                simp [(List.append_eq_nil_iff.mp hbytes).1] at this
            | cons b bs =>
                rw [hbytes] at hget hchar
                rw [Nat.add_zero] at hget
                rw [hget]
                exact leadWidth_of_charAt hchar
          rw [trimWsStartFrom, hwidth]
          dsimp only
          rw [h.getRange, Option.any_some, startsWithSpace_char]
          split_ifs with hspace
          · rw [List.dropWhile_cons_of_pos hspace]
            exact ih h.tail (Nat.le_of_succ_le_succ hn)
          · rw [List.dropWhile_cons_of_neg hspace]
            exact h

/-- The walk back to the first byte of a character. -/
lemma backUp_at {bytes : List UInt8} {pos : ℕ} {c : Char} {t : List Char}
    (h : At bytes pos (c :: t)) {k : ℕ} (hk : k < (String.utf8EncodeChar c).length) :
    backUp bytes (pos + (String.utf8EncodeChar c).length) (pos + k) = pos := by
  have hfour : (String.utf8EncodeChar c).length ≤ 4 := by
    rw [String.length_utf8EncodeChar]
    exact c.utf8Size_le_four
  obtain ⟨b, bs, hbytes, hlead, hcont⟩ := R50k.utf8EncodeChar_lead c
  have hget := h.getElem?
  rw [textBytes_cons, hbytes] at hget
  induction k with
  | zero =>
      rw [Nat.add_zero]
      cases pos with
      | zero => rfl
      | succ pos =>
          have hb : bytes[pos + 1]? = some b := hget 0
          rw [backUp, hb, Option.any_some, if_neg]
          exact fun hand => hlead (of_decide_eq_true hand.1)
  | succ k ih =>
      have hb : bytes[pos + (k + 1)]? = bs[k]? := by
        rw [hbytes, List.length_cons] at hk
        rw [hget, List.cons_append, List.getElem?_cons_succ, List.getElem?_append_left (by omega)]
      have hlt : k < bs.length := by
        rw [hbytes, List.length_cons] at hk
        omega
      rw [List.getElem?_eq_getElem hlt] at hb
      rw [← Nat.add_assoc] at hb ⊢
      rw [backUp, hb, Option.any_some, if_pos]
      · exact ih (by omega)
      · exact ⟨decide_eq_true (hcont _ (List.getElem_mem _)), by omega⟩

/-- The whitespace at the end of a text. -/
lemma trimWsEndFrom_text {n : ℕ} (t r : List Char) (hn : t.length ≤ n) :
    trimWsEndFrom (textBytes (t ++ r)) n (textBytes t).length =
      (textBytes (SentencePiece.trimEnd t)).length := by
  induction t using List.reverseRecOn generalizing n r with
  | nil => cases n <;> rfl
  | append_singleton t c ih =>
      cases n with
      | zero => simp at hn
      | succ n =>
          have hat : At (textBytes (t ++ [c] ++ r)) (textBytes t).length (c :: r) := by
            have h := (at_zero (t ++ ([c] ++ r))).append
            rw [Nat.zero_add] at h
            rwa [List.append_assoc]
          have hlen : (textBytes (t ++ [c])).length =
              (textBytes t).length + (String.utf8EncodeChar c).length := by
            rw [textBytes_append, List.length_append, textBytes_cons, textBytes_nil,
              List.append_nil]
          have hpos := length_utf8EncodeChar_pos c
          have hback : backUp (textBytes (t ++ [c] ++ r)) (textBytes (t ++ [c])).length
              ((textBytes (t ++ [c])).length - 1) = (textBytes t).length := by
            have hlast : (textBytes (t ++ [c])).length - 1 =
                (textBytes t).length + ((String.utf8EncodeChar c).length - 1) := by omega
            rw [hlast, hlen]
            exact backUp_at hat (by omega)
          rw [trimWsEndFrom, if_neg (by omega)]
          dsimp only
          rw [hback, hlen, hat.getRange, Option.any_some, startsWithSpace_char,
            SentencePiece.trimEnd, List.rdropWhile_concat]
          split_ifs with hspace
          · rw [List.append_assoc]
            exact ih _ (by simpa using hn)
          · exact hlen.symm

lemma trimWsEnd_text (t : List Char) :
    trimWsEnd (textBytes t) = (textBytes (SentencePiece.trimEnd t)).length := by
  have h := trimWsEndFrom_text (n := (textBytes t).length) t [] (at_zero t).length_le
  rwa [List.append_nil] at h

lemma trimWsStart_text (t : List Char) :
    At (textBytes t) (trimWsStart (textBytes t)) (SentencePiece.trimStart t) :=
  trimWsStartFrom_at (at_zero t) (at_zero t).length_le

/-! ### A turn in a text -/

/-- The content of an added token is a text. -/
def Pipeline.Spelled (p : Pipeline) : Prop := ∀ t ∈ p.addedTokens, ∃ c, t.content = textBytes c

/-- The bytes of a part of a text. -/
lemma At.slice {bytes : List UInt8} {pos : ℕ} {g r : List Char} (h : At bytes pos (g ++ r)) :
    (bytes.take (pos + (textBytes g).length)).drop pos = textBytes g := by
  rw [← List.take_drop, h.drop_eq, textBytes_append, List.take_left]

/-- A position in the rest of a text. -/
lemma At.inRest {bytes : List UInt8} {pos q : ℕ} {x y : List Char} (h : At bytes pos x)
    (hrest : At (textBytes x) q y) : At bytes (pos + q) y := by
  have hle := hrest.le
  have hlen := h.length_eq
  refine ⟨by omega, ?_⟩
  rw [← List.drop_drop, h.drop_eq, hrest.drop_eq]

namespace Pipeline

variable {p : Pipeline} {data : NfcData} {bytes : List UInt8} {pos : ℕ} {x : List Char}

/-- The first added token in a text, the gap before it and the rest. -/
def find (p : Pipeline) (x : List Char) : Option (List UInt8 × StripToken × List UInt8) :=
  findFirst (fun t : StripToken => t.content) p.addedTokens (textBytes x)

/-- The gap and the rest are texts. -/
lemma Spelled.find (hp : p.Spelled) {gap rest : List UInt8} {t : StripToken}
    (h : p.find x = some (gap, t, rest)) : ∃ g c r, gap = textBytes g ∧ t.content = textBytes c ∧
      c ≠ [] ∧ rest = textBytes r ∧ x = g ++ (c ++ r) := by
  obtain ⟨ht, happend⟩ := findFirst_eq_append h
  obtain ⟨c, hc⟩ := hp t ht
  have hne : c ≠ [] := by
    rintro rfl
    exact p.content_ne t ht hc
  rw [hc] at happend
  obtain ⟨g, r, rfl, rfl, rfl⟩ := exists_text_of_append hne happend
  exact ⟨g, c, r, rfl, hc, hne, rfl, rfl⟩

/-- The segment that an added token leaves of the gap before it. -/
def keptGap (t : StripToken) (g : List Char) : List Char :=
  if t.lstrip then SentencePiece.trimEnd g else g

/-- The rest that an added token leaves. -/
def keptRest (t : StripToken) (r : List Char) : List Char :=
  if t.rstrip then SentencePiece.trimStart r else r

/-- The whitespace that an added token absorbs behind it. -/
lemma exists_keptRest (t : StripToken) (r : List Char) : ∃ w, r = w ++ keptRest t r ∧
    (∀ c ∈ w, SentencePiece.isWhitespace c = true) ∧ (t.rstrip = false → w = []) := by
  rw [keptRest]
  split_ifs with hstrip
  · exact ⟨r.takeWhile SentencePiece.isWhitespace, List.takeWhile_append_dropWhile.symm,
      fun c hc => List.mem_takeWhile_imp hc, fun h => absurd hstrip (by rw [h]; decide)⟩
  · exact ⟨[], rfl, List.forall_mem_nil _, fun _ => rfl⟩

lemma findAddedToken_at (h : At bytes pos x) : p.findAddedToken bytes pos =
    (p.find x).map fun (gap, t, _) =>
      (pos + gap.length, pos + gap.length + t.content.length, t) := by
  rw [findAddedToken, h.drop_eq]
  rfl

/-- The last turn. -/
lemma pieceStep_none (h : At bytes pos x) (hfind : p.find x = none) :
    p.pieceStep data bytes pos = (p.encodedSegment data (textBytes x)).map fun encoded =>
      ([.segment encoded (textBytes x) pos], none) := by
  rw [pieceStep, findAddedToken_at h, hfind, Option.map_none]
  dsimp only
  rw [h.drop_eq]
  cases p.encodedSegment data (textBytes x) <;> rfl

variable (data) in
/-- A turn that ends in an added token. -/
lemma pieceStep_some (h : At bytes pos x) {g c r : List Char} {t : StripToken}
    (hfind : p.find x = some (textBytes g, t, textBytes r)) (hc : t.content = textBytes c)
    (hx : x = g ++ (c ++ r)) : ∃ next, At bytes next (keptRest t r) ∧
      next = pos + (textBytes g).length + (textBytes c).length +
        ((textBytes r).length - (textBytes (keptRest t r)).length) ∧
      p.pieceStep data bytes pos =
        (p.encodedSegment data (textBytes (keptGap t g))).map fun encoded =>
          ([.segment encoded (textBytes (keptGap t g)) pos,
            .added t.id (pos + (textBytes g).length)
              (pos + (textBytes g).length + (textBytes c).length)], some next) := by
  rw [hx] at h
  have hstop : At bytes (pos + (textBytes g).length + (textBytes c).length) r := h.append.append
  have hgap : (bytes.take (pos + (textBytes g).length)).drop pos = textBytes g := h.slice
  -- the segment ends where the whitespace before the added token starts
  have hsource : (bytes.take (if t.lstrip = true then pos + trimWsEnd (textBytes g)
      else pos + (textBytes g).length)).drop pos = textBytes (keptGap t g) := by
    rw [keptGap]
    split_ifs
    · obtain ⟨spaces, hspaces⟩ := List.rdropWhile_prefix SentencePiece.isWhitespace (l := g)
      rw [← hspaces, List.append_assoc] at h
      rw [trimWsEnd_text]
      exact h.slice
    · exact hgap
  have hnext : At bytes (if t.rstrip = true then
      pos + (textBytes g).length + (textBytes c).length + trimWsStart (textBytes r)
      else pos + (textBytes g).length + (textBytes c).length) (keptRest t r) := by
    rw [keptRest]
    split_ifs
    · exact hstop.inRest (trimWsStart_text r)
    · exact hstop
  refine ⟨_, hnext, ?_, ?_⟩
  · obtain ⟨w, hw, -, -⟩ := exists_keptRest t r
    have hlen := congrArg (fun r => (textBytes r).length) hw
    rw [textBytes_append, List.length_append] at hlen
    have := hnext.length_eq
    have := hstop.length_eq
    omega
  · rw [pieceStep, findAddedToken_at (hx ▸ h), hfind, Option.map_some]
    dsimp only
    rw [hgap, hc, hstop.drop_eq, hsource]
    cases p.encodedSegment data (textBytes (keptGap t g)) <;> rfl

/-- A piece of a text, before it is encoded. -/
inductive TextPiece
  | segment (source : List Char) (start : ℕ)
  | added (id : TokenId) (start stop : ℕ)

/-- The piece of the walk. -/
def TextPiece.encode (p : Pipeline) (data : NfcData) : TextPiece → Option Piece
  | segment source start => (p.encodedSegment data (textBytes source)).map fun encoded =>
      .segment encoded (textBytes source) start
  | added id start stop => some (.added id start stop)

/-- The pass over a text, from a position on. -/
inductive Pass (p : Pipeline) : ℕ → List Char → List TextPiece → Prop
  | nil (pos : ℕ) : Pass p pos [] []
  | last {pos : ℕ} {x : List Char} (hx : x ≠ []) (hfind : p.find x = none) :
      Pass p pos x [.segment x pos]
  | next {pos : ℕ} {x g c r : List Char} {t : StripToken} {ps : List TextPiece}
      (hx : x = g ++ (c ++ r)) (hc : t.content = textBytes c) (hne : c ≠ [])
      (hfind : p.find x = some (textBytes g, t, textBytes r))
      (hrest : Pass p (pos + (textBytes g).length + (textBytes c).length +
        ((textBytes r).length - (textBytes (keptRest t r)).length)) (keptRest t r) ps) :
      Pass p pos x (.segment (keptGap t g) pos ::
        .added t.id (pos + (textBytes g).length) (pos + (textBytes g).length + (textBytes c).length)
          :: ps)

lemma find_nil (p : Pipeline) : p.find [] = none := rfl

lemma length_keptRest_le (t : StripToken) (r : List Char) :
    (textBytes (keptRest t r)).length ≤ (textBytes r).length := by
  obtain ⟨w, hw, -, -⟩ := exists_keptRest t r
  have hlen := congrArg (fun r => (textBytes r).length) hw
  rw [textBytes_append, List.length_append] at hlen
  omega

/-- The walk over a text takes the pass. -/
lemma piecesFrom_at (hp : p.Spelled) {n : ℕ} (h : At bytes pos x) (hn : (textBytes x).length ≤ n) :
    ∃ ps, Pass p pos x ps ∧ p.piecesFrom data bytes n pos = ps.mapM (TextPiece.encode p data) := by
  induction n generalizing pos x with
  | zero =>
      obtain rfl : x = [] := textBytes_eq_nil.mp (List.length_eq_zero_iff.mp (Nat.le_zero.mp hn))
      exact ⟨[], .nil pos, by rw [piecesFrom, if_neg h.not_lt]; rfl⟩
  | succ n ih =>
      cases hfind : p.find x with
      | none =>
          cases x with
          | nil => exact ⟨[], .nil pos, by rw [piecesFrom, if_neg h.not_lt]; rfl⟩
          | cons a x =>
              refine ⟨_, .last (List.cons_ne_nil a x) hfind, ?_⟩
              rw [piecesFrom, if_pos h.lt, pieceStep_none h hfind, List.mapM_cons, TextPiece.encode]
              cases p.encodedSegment data (textBytes (a :: x)) <;> rfl
      | some match' =>
          obtain ⟨gap, t, rest⟩ := match'
          obtain ⟨g, c, r, rfl, hc, hne, rfl, rfl⟩ := hp.find hfind
          obtain ⟨next, hnext, hpos, hstep⟩ := pieceStep_some data h hfind hc rfl
          have hclen := List.length_pos_iff.mpr (textBytes_eq_nil.not.mpr hne)
          have hlt : pos < bytes.length := by
            have := h.length_eq
            rw [textBytes_append, textBytes_append, List.length_append, List.length_append] at this
            omega
          have hle := length_keptRest_le t r
          rw [textBytes_append, textBytes_append, List.length_append, List.length_append] at hn
          obtain ⟨ps, hpass, hps⟩ := ih hnext (by omega)
          rw [hpos] at hpass
          refine ⟨_, .next rfl hc hne hfind hpass, ?_⟩
          rw [piecesFrom, if_pos hlt, hstep, List.mapM_cons, List.mapM_cons, TextPiece.encode,
            TextPiece.encode]
          cases p.encodedSegment data (textBytes (keptGap t g)) with
          | none => rfl
          | some encoded =>
              simp only [Option.map_some, Option.bind_eq_bind, Option.bind_some, hps]
              cases ps.mapM (TextPiece.encode p data) <;> rfl

/-- Normalization keeps a text a text. -/
lemma nfcSegment_text (data : NfcData) (x : List Char) :
    ∃ y, nfcSegment data (textBytes x) = some (textBytes y) := by
  rw [nfcSegment]
  split_ifs
  · exact ⟨x, rfl⟩
  · obtain ⟨reordered, hreorder, -⟩ :=
      Nfc.reorder_eq data (x.flatMap fun ch => Nfc.decompose data ch (⟨0, 0⟩ : SourceSpan))
    have hslow : Nfc.normalizeSlow data x =
        some ((Nfc.composeUnits data Nfc.unionTwo reordered).map NfcUnit.ch) := by
      rw [Nfc.normalizeSlow, hreorder]
      rfl
    rw [fromUtf8_textBytes]
    obtain ⟨hyes, -⟩ | ⟨hno, hto⟩ := Nfc.isNormalized_cases hslow
    · exact ⟨x, by simp [hyes]⟩
    · exact ⟨(Nfc.composeUnits data Nfc.unionTwo reordered).map NfcUnit.ch, by simp [hno, hto]⟩

/-- So does the prefix. -/
lemma encodedSegment_text (p : Pipeline) (data : NfcData) (x : List Char) :
    ∃ y, p.encodedSegment data (textBytes x) = some (textBytes y) := by
  have hprefix : ∀ y : List Char, ∃ z : List Char, (if p.addPrefixSpace ∧ textBytes y ≠ [] ∧
      (textBytes y).head? ≠ some 0x20 then 0x20 :: textBytes y else textBytes y) = textBytes z := by
    intro y
    split_ifs
    · exact ⟨' ' :: y, rfl⟩
    · exact ⟨y, rfl⟩
  rw [encodedSegment]
  split_ifs with hnfc
  · obtain ⟨y, hy⟩ := nfcSegment_text data x
    obtain ⟨z, hz⟩ := hprefix y
    exact ⟨z, by rw [hy, ← hz]; rfl⟩
  · obtain ⟨z, hz⟩ := hprefix x
    exact ⟨z, congrArg some hz⟩

/-- The pieces of a text. -/
theorem pieces_text (hp : p.Spelled) (data : NfcData) (x : List Char) :
    ∃ ps, Pass p 0 x ps ∧ p.pieces data (textBytes x) = ps.mapM (TextPiece.encode p data) :=
  piecesFrom_at hp (at_zero x) le_rfl

end Pipeline

end Hypertok
