import Hypertok.Encode.Pieces
import Hypertok.Pretokenize.WordBorder

/-!
`safe_split_ranges`: an input cut into ranges that are encoded on their own.

* `safeSplitRanges`: the ranges; `Pipeline.found`: the added tokens and the pretokens of an input,
  with their positions.
* `Pass.border`: a pass over a text is cut at the border of a word, where no added token crosses.
* `exact_iff`: for all targets the parts have what the whole has, if and only if no split point lies
  inside of an added token that the pass over the whole finds.
-/

namespace Hypertok

open Machine

/-! ### The code -/

/-- `Finder::find_iter`: the occurrences that do not overlap, from left to right. -/
def findIter (needle : List UInt8) : ℕ → ℕ → List UInt8 → List ℕ
  | 0, _, _ => []
  | n + 1, base, bytes =>
      match findFirst (fun needle => needle) [needle] bytes with
      | none => []
      | some (gap, _, rest) =>
          (base + gap.length) :: findIter needle n (base + gap.length + needle.length) rest

/-- `u8::is_ascii_alphabetic`. -/
def isAsciiAlphabetic (b : UInt8) : Bool := (0x41 ≤ b && b ≤ 0x5A) || (0x61 ≤ b && b ≤ 0x7A)

/-- `u8::is_ascii_alphanumeric`. -/
def isAsciiAlphanumeric (b : UInt8) : Bool := isAsciiAlphabetic b || (0x30 ≤ b && b ≤ 0x39)

section Code

variable (addedTokens : List (List UInt8 × Bool)) (bytes : List UInt8)

/-- The contents that a boundary can cut: those with a space. -/
def blockers : List (List UInt8) := (addedTokens.map Prod.fst).filter (·.contains 0x20)

/-- The length of the longest one. -/
def maxBlocker : ℕ := ((blockers addedTokens).map List.length).foldl max 0

/-- The contents that can end at a boundary, and absorb the space there. -/
def endBlockers : List (List UInt8) :=
  (addedTokens.filter fun t => t.2 && t.1.getLast?.any isAsciiAlphanumeric).map Prod.fst

/-- `cuts_added_token`. -/
def cutsAddedToken (p : ℕ) : Bool :=
  let lo := p - (maxBlocker addedTokens - 1)
  let hi := min (p + (maxBlocker addedTokens - 1)) bytes.length
  let window := (bytes.take hi).drop lo
  (blockers addedTokens).any fun needle =>
    (findIter needle window.length lo window).any fun s => s < p && p < s + needle.length

/-- `ends_rstrip_token`. -/
def endsRstripToken (p : ℕ) : Bool :=
  (endBlockers addedTokens).any fun t => t.isSuffixOf (bytes.take p)

/-- A point where `safe_split_ranges` may cut. -/
def isSplitPoint (probe : ℕ) : Bool :=
  bytes[probe]? == some 0x20 && bytes[probe - 1]?.any isAsciiAlphanumeric &&
    bytes[probe + 1]?.any isAsciiAlphabetic &&
    !(0 < maxBlocker addedTokens && cutsAddedToken addedTokens bytes probe) &&
    !(!(endBlockers addedTokens).isEmpty && endsRstripToken addedTokens bytes probe)

/-- The inner loop of `safe_split_ranges`, of so many turns at most. -/
def probeFrom : ℕ → ℕ → Option ℕ
  | 0, _ => none
  | n + 1, probe =>
      if probe + 1 < bytes.length then
        if isSplitPoint addedTokens bytes probe then some probe else probeFrom n (probe + 1)
      else none

/-- The outer loop of `safe_split_ranges`, of so many turns at most. -/
def chunksFrom (target : ℕ) : ℕ → ℕ → List (ℕ × ℕ)
  | 0, _ => []
  | n + 1, start =>
      if start < bytes.length then
        match probeFrom addedTokens bytes bytes.length (start + target) with
        | some probe => (start, probe) :: chunksFrom target n probe
        | none => [(start, bytes.length)]
      else []

/-- `safe_split_ranges`. -/
def safeSplitRanges (target : ℕ) : List (ℕ × ℕ) :=
  let out := chunksFrom addedTokens bytes (max target 1) bytes.length 0
  if out.isEmpty then [(0, 0)] else out

end Code

/-- What a pass finds: a pretoken or an added token, and where it starts. -/
inductive Found
  | pretoken (start : ℕ) (bytes : List UInt8)
  | added (id : TokenId) (start stop : ℕ)
  deriving DecidableEq

namespace Found

/-- In an input that starts later. -/
def shift (k : ℕ) : Found → Found
  | pretoken start bytes => pretoken (k + start) bytes
  | added id start stop => added id (k + start) (k + stop)

/-- Pretokens that follow each other. -/
def locate : ℕ → List (List UInt8) → List Found
  | _, [] => []
  | start, token :: tokens => pretoken start token :: locate (start + token.length) tokens

end Found

namespace Pipeline

variable (p : Pipeline)

/-- `added_token_split_blockers`. -/
def addedTokenSplitBlockers : List (List UInt8 × Bool) :=
  p.addedTokens.map fun t => (t.content, t.rstrip)

/-- The added tokens and the pretokens of the pieces. -/
def found (tables : UnicodeTables) (scheme : PretokenizerType) (data : NfcData)
    (bytes : List UInt8) : Option (List Found) := do
  let pieces ← p.pieces data bytes
  let parts ← pieces.mapM fun
    | .segment encoded _ start => (scheme.pretokenize tables encoded).map (Found.locate start)
    | .added id start stop => some [.added id start stop]
  return parts.flatten

/-- What the ranges have, each on its own. -/
def foundInRanges (tables : UnicodeTables) (scheme : PretokenizerType) (data : NfcData)
    (bytes : List UInt8) (ranges : List (ℕ × ℕ)) : Option (List Found) := do
  let parts ← ranges.mapM fun range =>
    (p.found tables scheme data ((bytes.take range.2).drop range.1)).map
      (List.map (Found.shift range.1))
  return parts.flatten

end Pipeline

/-! ### What a pass finds -/

namespace Found

lemma locate_append (start : ℕ) (tokens tokens' : List (List UInt8)) :
    locate start (tokens ++ tokens') =
      locate start tokens ++ locate (start + tokens.flatten.length) tokens' := by
  induction tokens generalizing start with
  | nil => rfl
  | cons token tokens ih =>
      rw [List.cons_append, locate, ih, locate, List.cons_append, List.flatten_cons,
        List.length_append, Nat.add_assoc]

lemma locate_shift (k start : ℕ) (tokens : List (List UInt8)) :
    (locate start tokens).map (shift k) = locate (k + start) tokens := by
  induction tokens generalizing start with
  | nil => rfl
  | cons token tokens ih => rw [locate, List.map_cons, ih, locate, shift, Nat.add_assoc]

lemma added_not_mem_locate {id : TokenId} {start stop k : ℕ} {tokens : List (List UInt8)} :
    added id start stop ∉ locate k tokens := by
  induction tokens generalizing k with
  | nil => exact List.not_mem_nil
  | cons token tokens ih =>
      rw [locate, List.mem_cons, not_or]
      exact ⟨Found.noConfusion, ih⟩

end Found

namespace Pipeline

variable {p : Pipeline} {tables : UnicodeTables} {scheme : PretokenizerType} {data : NfcData}
  {x y u v : List Char} {pos : ℕ} {ps : List TextPiece}

/-- The pretokens of a piece, or the added token. -/
def TextPiece.found (tables : UnicodeTables) (scheme : PretokenizerType) : TextPiece → List Found
  | segment source start => Found.locate start ((scheme.pieces tables source).map textBytes)
  | added id start stop => [.added id start stop]

/-- Neither normalization nor a prefix. -/
structure Plain (p : Pipeline) : Prop where
  nfc : p.normalizeNfc = false
  prefixSpace : p.addPrefixSpace = false

lemma Plain.encodedSegment (h : p.Plain) (source : List UInt8) :
    p.encodedSegment data source = some source := by
  simp [Pipeline.encodedSegment, h.nfc, h.prefixSpace]

/-- A piece that is encoded as it is. -/
lemma mapM_encode (hplain : p.Plain) (ps : List TextPiece) :
    ps.mapM (TextPiece.encode p data) = some (ps.map fun
      | .segment source start => .segment (textBytes source) (textBytes source) start
      | .added id start stop => .added id start stop) := by
  induction ps with
  | nil => rfl
  | cons piece ps ih =>
      rw [List.mapM_cons, ih]
      cases piece with
      | segment source start => rw [TextPiece.encode, hplain.encodedSegment]; rfl
      | added id start stop => rfl

/-- The pass over a text has all that is found in it. -/
lemma found_text (hp : p.Spelled) (hplain : p.Plain) (tables : UnicodeTables)
    (scheme : PretokenizerType) (data : NfcData) (x : List Char) :
    ∃ ps, Pass p 0 x ps ∧
      p.found tables scheme data (textBytes x) =
        some (ps.flatMap (TextPiece.found tables scheme)) := by
  obtain ⟨ps, hpass, hps⟩ := pieces_text hp data x
  refine ⟨ps, hpass, ?_⟩
  rw [found, hps, mapM_encode hplain, Option.bind_eq_bind, Option.bind_some]
  clear hpass hps
  induction ps with
  | nil => rfl
  | cons piece ps ih =>
      rw [List.flatMap_cons, List.map_cons, List.mapM_cons]
      cases piece with
      | segment source start =>
          obtain ⟨parts, hparts, hflat⟩ := Option.bind_eq_some_iff.mp ih
          dsimp only at hparts ⊢
          rw [PretokenizerType.pretokenize_eq, hparts]
          simpa [TextPiece.found] using hflat
      | added id start stop =>
          obtain ⟨parts, hparts, hflat⟩ := Option.bind_eq_some_iff.mp ih
          dsimp only at hparts ⊢
          rw [hparts]
          simpa [TextPiece.found] using hflat

/-! ### Passes -/

/-- A text has one pass. -/
lemma Pass.unique {ps ps' : List TextPiece} (h : Pass p pos x ps) (h' : Pass p pos x ps') :
    ps = ps' := by
  induction h generalizing ps' with
  | nil pos =>
      cases h' with
      | nil => rfl
      | last hx => exact absurd rfl hx
      | next _ _ _ hfind => cases hfind
  | last hx hfind =>
      cases h' with
      | nil => exact absurd rfl hx
      | last => rfl
      | next _ _ _ hfind' => rw [hfind'] at hfind; cases hfind
  | next hx hc hne hfind hrest ih =>
      cases h' with
      | nil => cases hfind
      | last _ hfind' => rw [hfind'] at hfind; cases hfind
      | next hx' hc' hne' hfind' hrest' =>
          rw [hfind, Option.some_inj, Prod.mk.injEq, Prod.mk.injEq] at hfind'
          obtain ⟨hg, rfl, hr⟩ := hfind'
          obtain rfl := textBytes_inj hg
          obtain rfl := textBytes_inj hr
          obtain rfl := textBytes_inj (hc.symm.trans hc')
          rw [ih hrest']

/-- A piece in an input that starts later. -/
def TextPiece.shift (k : ℕ) : TextPiece → TextPiece
  | segment source start => segment source (k + start)
  | added id start stop => added id (k + start) (k + stop)

lemma Pass.shift (h : Pass p pos x ps) (k : ℕ) :
    Pass p (k + pos) x (ps.map (TextPiece.shift k)) := by
  induction h with
  | nil pos => exact .nil _
  | last hx hfind => exact .last hx hfind
  | next hx hc hne hfind hrest ih =>
      rw [← Nat.add_assoc, ← Nat.add_assoc, ← Nat.add_assoc] at ih
      have h := Pass.next hx hc hne hfind ih
      simpa [TextPiece.shift, Nat.add_assoc] using h

lemma TextPiece.found_shift (k : ℕ) (piece : TextPiece) :
    (piece.shift k).found tables scheme = (piece.found tables scheme).map (Found.shift k) := by
  cases piece with
  | segment source start => exact (Found.locate_shift k start _).symm
  | added id start stop => rfl

/-- An added token lies in the text. -/
lemma Pass.added_le (h : Pass p pos x ps) {id : TokenId} {start stop : ℕ}
    (hmem : .added id start stop ∈ ps) : stop ≤ pos + (textBytes x).length := by
  induction h with
  | nil pos => cases hmem
  | last hx hfind => simp at hmem
  | @next pos x g c r t ps hx hc hne hfind hrest ih =>
      have hlen := congrArg (fun x => (textBytes x).length) hx
      rw [textBytes_append, textBytes_append, List.length_append, List.length_append] at hlen
      have hle := length_keptRest_le t r
      simp only [List.mem_cons, reduceCtorEq, false_or, TextPiece.added.injEq] at hmem
      obtain ⟨-, -, rfl⟩ | hmem := hmem
      · omega
      · have := ih hmem
        omega

/-! ### The border of a word -/

variable {e : Char} {t : StripToken}

lemma not_isWhitespace (he : IsWordAscii e) : SentencePiece.isWhitespace e = false := by
  have hall : ∀ n < 0x80, asciiClass n = .letter ∨ asciiClass n = .number →
      SentencePiece.isWhitespace (Char.ofNat n) = false := by decide +kernel
  rw [← Char.ofNat_toNat e]
  exact hall _ he.lt he.class_eq

/-- An added token behind the border leaves what is before it. -/
lemma keptGap_border (he : IsWordAscii e) (t : StripToken) (y k : List Char) :
    keptGap t (y ++ [e] ++ k) = y ++ [e] ++ keptGap t k := by
  rw [keptGap, keptGap]
  split_ifs
  · rw [SentencePiece.trimEnd, SentencePiece.trimEnd]
    induction k using List.reverseRecOn with
    | nil =>
        rw [List.append_nil, List.rdropWhile_nil, List.append_nil, List.rdropWhile_concat_neg]
        rw [not_isWhitespace he]
        exact Bool.false_ne_true
    | append_singleton k c ih =>
        rw [← List.append_assoc, List.rdropWhile_concat, List.rdropWhile_concat]
        split_ifs
        · exact ih
        · rw [List.append_assoc]
  · rfl

lemma keptGap_front (t : StripToken) (g : List Char) : keptGap t g <+: g := by
  rw [keptGap]
  split_ifs
  · exact List.rdropWhile_prefix _ _
  · exact List.prefix_rfl

/-- An added token before the border leaves what is behind it. -/
lemma exists_keptRest_border (he : IsWordAscii e) (t : StripToken) (r : List Char) :
    ∃ k, k <:+ r ∧ ∀ s, keptRest t (r ++ e :: s) = k ++ e :: s := by
  have hstop : ∀ s, (e :: s).dropWhile SentencePiece.isWhitespace = e :: s := fun s => by
    rw [List.dropWhile_cons_of_neg]
    rw [not_isWhitespace he]
    exact Bool.false_ne_true
  cases hstrip : t.rstrip with
  | false => exact ⟨r, List.suffix_refl r, fun s => by rw [keptRest, hstrip]; rfl⟩
  | true =>
      refine ⟨r.dropWhile SentencePiece.isWhitespace, List.dropWhile_suffix _, fun s => ?_⟩
      rw [keptRest, hstrip, if_pos rfl, SentencePiece.trimStart]
      induction r with
      | nil => exact hstop s
      | cons c r ih =>
          rw [List.cons_append]
          by_cases hc : SentencePiece.isWhitespace c = true
          · rw [List.dropWhile_cons_of_pos hc, List.dropWhile_cons_of_pos hc, ih]
          · rw [List.dropWhile_cons_of_neg hc, List.dropWhile_cons_of_neg hc, List.cons_append]

/-- The pretokens of a segment that reaches over the border. -/
lemma found_border (he : IsWordAscii e) (y : List Char) {k : List Char}
    (hk : k = [] ∨ ∃ z, k = ' ' :: z) (pos : ℕ) :
    (TextPiece.segment (y ++ [e] ++ k) pos).found tables scheme =
      (TextPiece.segment (y ++ [e]) pos).found tables scheme ++
        (TextPiece.segment k (pos + (textBytes (y ++ [e])).length)).found tables scheme := by
  have hpieces : scheme.pieces tables (y ++ [e] ++ k) =
      scheme.pieces tables (y ++ [e]) ++ scheme.pieces tables k := by
    obtain rfl | ⟨z, rfl⟩ := hk
    · rw [List.append_nil, PretokenizerType.pieces_nil, List.append_nil]
    · rw [List.append_assoc, List.singleton_append, scheme.pieces_border tables he]
  have hlen : ((scheme.pieces tables (y ++ [e])).map textBytes).flatten = textBytes (y ++ [e]) := by
    rw [← textBytes_flatten, scheme.flatten_pieces]
  rw [TextPiece.found, hpieces, List.map_append, Found.locate_append, hlen, TextPiece.found,
    TextPiece.found]

/-- A match across no border is found in the part before it, or in the part behind it. -/
lemma find_border (hp : p.Spelled) {y w g c r : List Char} (hc : t.content = textBytes c)
    (hfind : p.find (y ++ w) = some (textBytes g, t, textBytes r))
    (hcross : ¬ ((textBytes g).length < (textBytes y).length ∧
      (textBytes y).length < (textBytes g).length + (textBytes c).length)) :
    (∃ r', y = g ++ (c ++ r') ∧ r = r' ++ w ∧ p.find y = some (textBytes g, t, textBytes r')) ∨
      ∃ g', g = y ++ g' ∧ p.find y = none ∧ p.find w = some (textBytes g', t, textBytes r) := by
  rw [find, textBytes_append] at hfind
  obtain ⟨rest, hrest, hy⟩ | ⟨gap, hgap, hy, hw⟩ | hacross := findFirst_append hfind
  · obtain ⟨g', c', r', hg, hc', -, rfl, hsplit⟩ := hp.find hy
    obtain rfl := textBytes_inj hg
    obtain rfl := textBytes_inj (hc.symm.trans hc')
    rw [← textBytes_append] at hrest
    exact .inl ⟨r', hsplit, textBytes_inj hrest, hy⟩
  · obtain ⟨g', c', r', rfl, -, -, -, -⟩ := hp.find hw
    rw [← textBytes_append] at hgap
    exact .inr ⟨g', textBytes_inj hgap, hy, hw⟩
  · rw [hc] at hacross
    exact absurd hacross hcross

/-- A pass is cut at the border of a word, if no added token crosses it, and none that absorbs the
space ends there. -/
theorem Pass.border (tables : UnicodeTables) (scheme : PretokenizerType) (hp : p.Spelled)
     (he : IsWordAscii e) (h : Pass p pos x ps)
    (hx : x = u ++ [e] ++ ' ' :: v)
    (hcross : ∀ id start stop, .added id start stop ∈ ps →
      ¬ (start < pos + (textBytes (u ++ [e])).length ∧ pos + (textBytes (u ++ [e])).length < stop))
    (hrstrip : ∀ t ∈ p.addedTokens, t.rstrip = true → ¬ t.content <:+ textBytes (u ++ [e])) :
    ∃ front back, Pass p pos (u ++ [e]) front ∧
      Pass p (pos + (textBytes (u ++ [e])).length) (' ' :: v) back ∧
      ps.flatMap (TextPiece.found tables scheme) =
        front.flatMap (TextPiece.found tables scheme) ++
          back.flatMap (TextPiece.found tables scheme) := by
  induction h generalizing u with
  | nil pos => simp at hx
  | @last pos x hne hfind =>
      subst hx
      rw [find, textBytes_append] at hfind
      obtain ⟨hfront, hback⟩ := findFirst_append_none hfind
      refine ⟨_, _, .last (by simp) hfront, .last (List.cons_ne_nil _ _) hback, ?_⟩
      rw [List.flatMap_singleton, List.flatMap_singleton, List.flatMap_singleton,
        found_border he u (.inr ⟨v, rfl⟩)]
  | @next pos x g c r t ps hsplit hc hne hfind hrest ih =>
      subst hx
      have hmem : TextPiece.added t.id (pos + (textBytes g).length)
          (pos + (textBytes g).length + (textBytes c).length) ∈
          TextPiece.segment (keptGap t g) pos :: .added t.id (pos + (textBytes g).length)
            (pos + (textBytes g).length + (textBytes c).length) :: ps := by simp
      have hinside := hcross _ _ _ hmem
      obtain ⟨r', hfront, rfl, hfind'⟩ | ⟨g', rfl, hnone, hback⟩ :=
        find_border hp hc hfind (by omega)
      · obtain rfl | ⟨r'', b, rfl⟩ := r'.eq_nil_or_concat'
        · -- the added token ends at the border, and absorbs no space
          rw [List.append_nil] at hfront
          have hkeep : t.rstrip = false := by
            refine Bool.eq_false_iff.mpr fun hstrip => ?_
            refine hrstrip t (findFirst_eq_append hfind).1 hstrip ?_
            rw [hc, hfront, textBytes_append]
            exact List.suffix_append _ _
          rw [List.nil_append] at hrest
          rw [keptRest, hkeep, if_neg Bool.false_ne_true, Nat.sub_self, Nat.add_zero] at hrest
          have hlen : (textBytes (u ++ [e])).length =
              (textBytes g).length + (textBytes c).length := by
            rw [hfront, textBytes_append, List.length_append]
          have hnil : keptRest t [] = [] := by rw [keptRest, hkeep]; rfl
          refine ⟨_, ps, .next (r := []) (by rw [List.append_nil, hfront]) hc hne hfind'
            (by rw [hnil]; exact .nil _), ?_, ?_⟩
          · rwa [hlen, ← Nat.add_assoc]
          · simp
        · -- the rest before the border ends in the word
          have hlast : g ++ (c ++ r'') = u ∧ b = e := by
            have := hfront
            rw [← List.append_assoc, ← List.append_assoc, List.append_assoc g] at this
            exact ⟨(List.append_inj' this rfl).1.symm,
              (List.singleton_inj.mp (List.append_inj' this rfl).2).symm⟩
          obtain ⟨rfl, rfl⟩ := hlast
          obtain ⟨k, hsuffix, hk⟩ := exists_keptRest_border he t r''
          obtain ⟨w, rfl⟩ := hsuffix
          have hrest' : keptRest t (w ++ k ++ [b] ++ ' ' :: v) = k ++ [b] ++ ' ' :: v := by
            rw [List.append_assoc (w ++ k), List.singleton_append, hk, List.append_assoc k,
              List.singleton_append]
          have hgone : (textBytes (w ++ k ++ [b] ++ ' ' :: v)).length -
              (textBytes (k ++ [b] ++ ' ' :: v)).length = (textBytes w).length := by
            simp only [textBytes_append, List.length_append]
            omega
          have hgone' : (textBytes (w ++ k ++ [b])).length -
              (textBytes (keptRest t (w ++ k ++ [b]))).length = (textBytes w).length := by
            rw [hk]
            simp only [textBytes_append, List.length_append]
            omega
          have hpos : pos + (textBytes g).length + (textBytes c).length + (textBytes w).length +
              (textBytes (k ++ [b])).length =
                pos + (textBytes (g ++ (c ++ (w ++ k)) ++ [b])).length := by
            simp only [textBytes_append, List.length_append]
            omega
          rw [hrest', hgone] at ih
          have hborder := ih (u := k) rfl
          rw [hpos] at hborder
          obtain ⟨front, back, hfront, hback, hfound⟩ := hborder
            (fun id start stop hmem => hcross id start stop (by simp [hmem]))
            (fun t ht hstrip hsuffix => hrstrip t ht hstrip (hsuffix.trans
              ⟨textBytes (g ++ (c ++ w)), by simp only [textBytes_append, List.append_assoc]⟩))
          refine ⟨_, back, .next (by simp) hc hne hfind' (by rw [hgone', hk]; exact hfront), hback,
            ?_⟩
          rw [List.flatMap_cons, List.flatMap_cons, List.flatMap_cons, List.flatMap_cons, hfound]
          simp
      · -- the added token is behind the border
        have hback' : ' ' :: v = g' ++ (c ++ r) := by
          rw [List.append_assoc (u ++ [e])] at hsplit
          exact List.append_cancel_left hsplit
        have hpos : pos + (textBytes (u ++ [e] ++ g')).length =
            pos + (textBytes (u ++ [e])).length + (textBytes g').length := by
          rw [textBytes_append, List.length_append, Nat.add_assoc]
        have hkept : keptGap t g' = [] ∨ ∃ z, keptGap t g' = ' ' :: z := by
          cases hkept : keptGap t g' with
          | nil => exact .inl rfl
          | cons d z =>
              have hprefix := (keptGap_front t g').trans (List.prefix_append g' (c ++ r))
              rw [hkept, ← hback'] at hprefix
              exact .inr ⟨z, by rw [(List.cons_prefix_cons.mp hprefix).1]⟩
        rw [hpos] at hrest ⊢
        refine ⟨_, _, .last (by simp) hnone, .next hback' hc hne hback hrest, ?_⟩
        rw [keptGap_border he, List.flatMap_cons, found_border he u hkept, List.flatMap_singleton,
          List.flatMap_cons, List.flatMap_cons, List.flatMap_cons, List.append_assoc]

/-! ### The split points -/

variable {bytes : List UInt8} {q : ℕ}

/-- A letter or a digit of ASCII is its byte. -/
lemma exists_isWordAscii {b : UInt8} (hb : isAsciiAlphanumeric b = true) :
    ∃ e, IsWordAscii e ∧ textBytes [e] = [b] := by
  have hall : ∀ n < 256, isAsciiAlphanumeric (UInt8.ofNat n) = true → n < 0x80 ∧
      (asciiClass n = .letter ∨ asciiClass n = .number) ∧ (Char.ofNat n).toNat = n := by
    decide +kernel
  have hb' : isAsciiAlphanumeric (UInt8.ofNat b.toNat) = true := by rwa [UInt8.ofNat_toNat]
  obtain ⟨hlt, hcls, htoNat⟩ := hall _ b.toNat_lt hb'
  refine ⟨Char.ofNat b.toNat, ⟨by rw [htoNat]; exact hlt, by rw [htoNat]; exact hcls⟩, ?_⟩
  rw [textBytes_cons, textBytes_nil, List.append_nil,
    utf8EncodeChar_ascii (by rw [htoNat]; exact hlt), htoNat, UInt8.ofNat_toNat]

/-- A split point is the border of a word in the text, and no added token that absorbs the space
ends there. -/
lemma exists_border (h : isSplitPoint p.addedTokenSplitBlockers (textBytes x) q = true) :
    ∃ u e v, IsWordAscii e ∧ x = u ++ [e] ++ ' ' :: v ∧ (textBytes (u ++ [e])).length = q ∧
      q + 1 < (textBytes x).length ∧
      ∀ t ∈ p.addedTokens, t.rstrip = true → ¬ t.content <:+ textBytes (u ++ [e]) := by
  simp only [isSplitPoint, Bool.and_eq_true, beq_iff_eq, Bool.not_eq_true'] at h
  obtain ⟨⟨⟨⟨hspace, hword⟩, hnext⟩, -⟩, hends⟩ := h
  obtain ⟨b, hb, halnum⟩ := (Option.any_eq_true _ _).mp hword
  obtain ⟨d, hd, -⟩ := (Option.any_eq_true _ _).mp hnext
  obtain ⟨e, he, hbytes⟩ := exists_isWordAscii halnum
  cases q with
  | zero =>
      rw [hspace, Option.some_inj] at hb
      rw [← hb] at halnum
      exact absurd halnum (by decide)
  | succ k =>
      rw [Nat.add_sub_cancel] at hb
      obtain ⟨hk, hkb⟩ := List.getElem?_eq_some_iff.mp hb
      obtain ⟨hk', hkb'⟩ := List.getElem?_eq_some_iff.mp hspace
      have htext : textBytes x =
          (textBytes x).take k ++ (textBytes [e, ' '] ++ (textBytes x).drop (k + 1 + 1)) := by
        have hpair : textBytes [e, ' '] = [b, 0x20] := by
          rw [textBytes_cons, ← List.append_nil (String.utf8EncodeChar e), ← textBytes_nil,
            ← textBytes_cons, hbytes]
          rfl
        conv_lhs => rw [← List.take_append_drop k (textBytes x), List.drop_eq_getElem_cons hk,
          List.drop_eq_getElem_cons hk', hkb, hkb']
        rw [hpair]
        rfl
      obtain ⟨u, v, hu, -, rfl⟩ := exists_text_of_append (List.cons_ne_nil _ _) htext
      have hlen : (textBytes (u ++ [e])).length = k + 1 := by
        rw [textBytes_append, hbytes, List.length_append, ← hu, List.length_take]
        simp only [List.length_singleton]
        omega
      refine ⟨u, e, v, he, by simp, hlen, (List.getElem?_eq_some_iff.mp hd).1, ?_⟩
      intro t ht hstrip hsuffix
      have hlast : t.content.getLast? = some b := by
        obtain ⟨w, hw⟩ := hsuffix
        have hw := congrArg List.getLast? hw
        rwa [textBytes_append, hbytes, List.getLast?_concat,
          List.getLast?_append_of_ne_nil _ (p.content_ne t ht)] at hw
      have hmem : t.content ∈ endBlockers p.addedTokenSplitBlockers := by
        refine List.mem_map.mpr ⟨(t.content, t.rstrip), List.mem_filter.mpr ⟨?_, ?_⟩, rfl⟩
        · exact List.mem_map.mpr ⟨t, ht, rfl⟩
        · rw [hstrip, hlast]
          exact halnum
      have htrue : endsRstripToken p.addedTokenSplitBlockers
          (textBytes (u ++ ([e, ' '] ++ v))) (k + 1) = true := by
        refine List.any_eq_true.mpr ⟨t.content, hmem, List.isSuffixOf_iff_suffix.mpr ?_⟩
        have htake : (textBytes (u ++ ([e, ' '] ++ v))).take (k + 1) = textBytes (u ++ [e]) := by
          have hsplit : u ++ ([e, ' '] ++ v) = (u ++ [e]) ++ (' ' :: v) := by simp
          rw [hsplit, textBytes_append (u ++ [e]), ← hlen, List.take_left]
        rwa [htake]
      rw [htrue, List.isEmpty_eq_false_iff.mpr (List.ne_nil_of_mem hmem)] at hends
      exact absurd hends (by decide)

lemma mem_found_iff {id : TokenId} {start stop : ℕ} :
    Found.added id start stop ∈ ps.flatMap (TextPiece.found tables scheme) ↔
      TextPiece.added id start stop ∈ ps := by
  rw [List.mem_flatMap]
  constructor
  · rintro ⟨piece, hpiece, hmem⟩
    cases piece with
    | segment source k => exact absurd hmem Found.added_not_mem_locate
    | added id' start' stop' =>
        rw [TextPiece.found, List.mem_singleton, Found.added.injEq] at hmem
        obtain ⟨rfl, rfl, rfl⟩ := hmem
        exact hpiece
  · exact fun hmem => ⟨_, hmem, List.mem_singleton_self _⟩

/-- A part of the text, on its own. -/
lemma found_part (hp : p.Spelled) (hplain : p.Plain) (data : NfcData) {start : ℕ}
    (h : Pass p start x ps) :
    (p.found tables scheme data (textBytes x)).map (List.map (Found.shift start)) =
      some (ps.flatMap (TextPiece.found tables scheme)) := by
  obtain ⟨ps', hpass, hfound⟩ := found_text hp hplain tables scheme data x
  have hsame := h.unique (hpass.shift start)
  rw [hfound, Option.map_some, hsame, List.flatMap_map, List.map_flatMap]
  exact congrArg some (List.flatMap_congr fun piece _ => (TextPiece.found_shift start piece).symm)

lemma foundInRanges_cons (range : ℕ × ℕ) (ranges : List (ℕ × ℕ)) :
    p.foundInRanges tables scheme data bytes (range :: ranges) =
      ((p.found tables scheme data ((bytes.take range.2).drop range.1)).map
        (List.map (Found.shift range.1))).bind fun front =>
          (p.foundInRanges tables scheme data bytes ranges).map (front ++ ·) := by
  rw [foundInRanges, foundInRanges, List.mapM_cons]
  cases (p.found tables scheme data ((bytes.take range.2).drop range.1)).map
    (List.map (Found.shift range.1)) with
  | none => rfl
  | some front =>
      generalize ranges.mapM (fun range : ℕ × ℕ =>
        (p.found tables scheme data ((bytes.take range.2).drop range.1)).map
          (List.map (Found.shift range.1))) = rest
      cases rest <;> rfl

end Pipeline

/-! ### The ranges -/

/-- Ranges that follow each other, none of them empty. -/
inductive Consecutive : ℕ → ℕ → List (ℕ × ℕ) → Prop
  | nil (a : ℕ) : Consecutive a a []
  | cons {a b c : ℕ} {ranges : List (ℕ × ℕ)} (hlt : a < b) (h : Consecutive b c ranges) :
      Consecutive a c ((a, b) :: ranges)

lemma Consecutive.le_fst {a c : ℕ} {ranges : List (ℕ × ℕ)} (h : Consecutive a c ranges) :
    ∀ range ∈ ranges, a ≤ range.1 := by
  induction h with
  | nil => exact List.forall_mem_nil _
  | cons hlt h ih =>
      exact List.forall_mem_cons.mpr ⟨le_rfl, fun range hrange => hlt.le.trans (ih range hrange)⟩

section

variable {addedTokens : List (List UInt8 × Bool)} {bytes : List UInt8} {n probe target start q : ℕ}

lemma probeFrom_eq_some (h : probeFrom addedTokens bytes n probe = some q) :
    isSplitPoint addedTokens bytes q = true ∧ probe ≤ q ∧ q + 1 < bytes.length := by
  induction n generalizing probe with
  | zero => cases h
  | succ n ih =>
      rw [probeFrom] at h
      split_ifs at h with hlen hpoint
      · cases h
        exact ⟨hpoint, le_rfl, hlen⟩
      · obtain ⟨hq, hle, hlen⟩ := ih h
        exact ⟨hq, by omega, hlen⟩

/-- The ranges cover the input. -/
lemma chunksFrom_consecutive (htarget : 0 < target) (hstart : start ≤ bytes.length)
    (hn : bytes.length - start ≤ n) :
    Consecutive start bytes.length (chunksFrom addedTokens bytes target n start) := by
  induction n generalizing start with
  | zero =>
      obtain rfl : start = bytes.length := by omega
      exact .nil _
  | succ n ih =>
      rw [chunksFrom]
      split_ifs with hlt
      · cases hprobe : probeFrom addedTokens bytes bytes.length (start + target) with
        | none => exact .cons hlt (.nil _)
        | some q =>
            obtain ⟨-, hle, hlen⟩ := probeFrom_eq_some hprobe
            exact .cons (by omega) (ih (by omega) (by omega))
      · obtain rfl : start = bytes.length := by omega
        exact .nil _

end

namespace Pipeline

variable {p : Pipeline} {tables : UnicodeTables} {scheme : PretokenizerType} {data : NfcData}
  {x y w : List Char} {ps : List TextPiece} {n start target : ℕ}

/-- A split point behind the start of a part. -/
lemma exists_border_behind {q : ℕ}
    (h : isSplitPoint p.addedTokenSplitBlockers (textBytes (w ++ y)) q = true)
    (hlt : (textBytes w).length < q) :
    ∃ u e v, IsWordAscii e ∧ y = u ++ [e] ++ ' ' :: v ∧
      (textBytes w).length + (textBytes (u ++ [e])).length = q ∧
      ∀ t ∈ p.addedTokens, t.rstrip = true → ¬ t.content <:+ textBytes (u ++ [e]) := by
  obtain ⟨u, e, v, he, hx, hlen, -, hends⟩ := exists_border h
  obtain ⟨z, hfront, hy⟩ | ⟨z, hw, -⟩ := List.append_eq_append_iff.mp hx
  · obtain rfl | ⟨u', b, rfl⟩ := z.eq_nil_or_concat'
    · rw [List.append_nil] at hfront
      rw [← hlen, hfront] at hlt
      exact absurd hlt (lt_irrefl _)
    · rw [← List.append_assoc] at hfront
      obtain ⟨rfl, hb⟩ := List.append_inj' hfront rfl
      obtain rfl := List.singleton_inj.mp hb
      refine ⟨u', e, v, he, hy, ?_, fun t ht hstrip hsuffix => hends t ht hstrip ?_⟩
      · rw [← hlen, List.append_assoc, textBytes_append w, List.length_append]
      · rw [List.append_assoc, textBytes_append w]
        exact hsuffix.trans (List.suffix_append _ _)
  · have := congrArg (fun w => (textBytes w).length) hw
    rw [textBytes_append, List.length_append] at this
    omega

/-- The ranges have what the pass has, from a start on. -/
lemma foundInRanges_chunks (hp : p.Spelled) (hplain : p.Plain) (htarget : 0 < target)
    (h : Pass p (textBytes w).length y ps)
    (hcross : ∀ q, isSplitPoint p.addedTokenSplitBlockers (textBytes (w ++ y)) q = true →
      ∀ id start stop, .added id start stop ∈ ps → ¬ (start < q ∧ q < stop))
    (hn : (textBytes y).length ≤ n) :
    p.foundInRanges tables scheme data (textBytes (w ++ y))
      (chunksFrom p.addedTokenSplitBlockers (textBytes (w ++ y)) target n (textBytes w).length) =
        some (ps.flatMap (TextPiece.found tables scheme)) := by
  induction n generalizing w y ps with
  | zero =>
      obtain rfl : y = [] := textBytes_eq_nil.mp (List.length_eq_zero_iff.mp (Nat.le_zero.mp hn))
      cases h with
      | nil => rfl
      | last hx => exact absurd rfl hx
      | next _ _ _ hfind => cases hfind
  | succ n ih =>
      have hlen : (textBytes (w ++ y)).length = (textBytes w).length + (textBytes y).length := by
        rw [textBytes_append, List.length_append]
      rw [chunksFrom]
      split_ifs with hlt
      · cases hprobe : probeFrom p.addedTokenSplitBlockers (textBytes (w ++ y))
            (textBytes (w ++ y)).length ((textBytes w).length + target) with
        | none =>
            have hslice : ((textBytes (w ++ y)).take (textBytes (w ++ y)).length).drop
                (textBytes w).length = textBytes y := by
              rw [List.take_length, textBytes_append, List.drop_left]
            dsimp only
            rw [foundInRanges_cons, hslice, found_part hp hplain data h, Option.bind_some]
            exact congrArg some (List.append_nil _)
        | some q =>
            obtain ⟨hpoint, hle, -⟩ := probeFrom_eq_some hprobe
            obtain ⟨u, e, v, he, rfl, rfl, hends⟩ := exists_border_behind hpoint (by omega)
            obtain ⟨front, back, hfront, hback, hfound⟩ := h.border tables scheme hp he rfl
              (fun id start stop hmem => hcross _ hpoint id start stop hmem) hends
            have hslice : ((textBytes (w ++ (u ++ [e] ++ ' ' :: v))).take
                ((textBytes w).length + (textBytes (u ++ [e])).length)).drop (textBytes w).length =
                  textBytes (u ++ [e]) := by
              rw [← List.take_drop, textBytes_append w, List.drop_left, textBytes_append (u ++ [e]),
                List.take_left]
            dsimp only
            rw [foundInRanges_cons, hslice, found_part hp hplain data hfront, Option.bind_some]
            have hjoin : w ++ (u ++ [e] ++ ' ' :: v) = w ++ (u ++ [e]) ++ ' ' :: v :=
              (List.append_assoc _ _ _).symm
            have hstart : (textBytes w).length + (textBytes (u ++ [e])).length =
                (textBytes (w ++ (u ++ [e]))).length := by
              rw [textBytes_append w, List.length_append]
            rw [hjoin] at hcross ⊢
            rw [hstart] at hback ⊢
            have hne : 0 < (textBytes (u ++ [e])).length := by omega
            rw [textBytes_append (u ++ [e]), List.length_append] at hn
            rw [ih hback (fun q hq id start stop hmem => hcross q hq id start stop ?_) (by omega),
              hfound]
            · rfl
            · have hmem' : Found.added id start stop ∈
                  ps.flatMap (TextPiece.found tables scheme) := by
                rw [hfound]
                exact List.mem_append_right _ (mem_found_iff.mpr hmem)
              exact mem_found_iff.mp hmem'
      · obtain rfl : y = [] := textBytes_eq_nil.mp (List.length_eq_zero_iff.mp (by omega))
        cases h with
        | nil => rfl
        | last hx => exact absurd rfl hx
        | next _ _ _ hfind => cases hfind

/-- The input without a range is the empty one. -/
lemma foundInRanges_safeSplitRanges (hp : p.Spelled) (hplain : p.Plain) (target : ℕ)
    (h : Pass p 0 x ps)
    (hcross : ∀ q, isSplitPoint p.addedTokenSplitBlockers (textBytes x) q = true →
      ∀ id start stop, .added id start stop ∈ ps → ¬ (start < q ∧ q < stop)) :
    p.foundInRanges tables scheme data (textBytes x)
      (safeSplitRanges p.addedTokenSplitBlockers (textBytes x) target) =
        some (ps.flatMap (TextPiece.found tables scheme)) := by
  have hranges : p.foundInRanges tables scheme data (textBytes x)
      (chunksFrom p.addedTokenSplitBlockers (textBytes x) (max target 1) (textBytes x).length 0) =
        some (ps.flatMap (TextPiece.found tables scheme)) :=
    foundInRanges_chunks (w := []) hp hplain (by omega) h hcross le_rfl
  rw [safeSplitRanges]
  split_ifs with hempty
  · rw [List.isEmpty_iff.mp hempty] at hranges
    have hcover : Consecutive 0 (textBytes x).length (chunksFrom p.addedTokenSplitBlockers
        (textBytes x) (max target 1) (textBytes x).length 0) :=
      chunksFrom_consecutive (by omega) (Nat.zero_le _) le_rfl
    have hlen : (textBytes x).length = 0 := by
      rw [List.isEmpty_iff.mp hempty] at hcover
      generalize (textBytes x).length = len at hcover
      cases hcover
      rfl
    have hslice : ((textBytes x).take 0).drop 0 = textBytes x := by
      rw [List.length_eq_zero_iff.mp hlen]
      rfl
    rw [foundInRanges_cons, hslice, found_part hp hplain data h, Option.bind_some]
    exact congrArg some (List.append_nil _)
  · exact hranges

/-- An added token of a range starts in it. -/
lemma le_of_mem_foundInRanges {bytes : List UInt8} {ranges : List (ℕ × ℕ)} {q : ℕ}
    (hranges : ∀ range ∈ ranges, q ≤ range.1) {found : List Found}
    (h : p.foundInRanges tables scheme data bytes ranges = some found) {id : TokenId}
    {start stop : ℕ} (hmem : .added id start stop ∈ found) : q ≤ start := by
  induction ranges generalizing found with
  | nil =>
      obtain rfl : [] = found := Option.some_inj.mp h
      cases hmem
  | cons range ranges ih =>
      obtain ⟨hrange, hranges⟩ := List.forall_mem_cons.mp hranges
      rw [foundInRanges_cons, Option.bind_eq_some_iff] at h
      obtain ⟨front, hfront, h⟩ := h
      obtain ⟨back, hback, rfl⟩ := Option.map_eq_some_iff.mp h
      obtain ⟨inside, -, rfl⟩ := Option.map_eq_some_iff.mp hfront
      rcases List.mem_append.mp hmem with hmem | hmem
      · obtain ⟨found, -, hshift⟩ := List.mem_map.mp hmem
        cases found with
        | pretoken start' bytes => cases hshift
        | added id' start' stop' =>
            rw [Found.shift, Found.added.injEq] at hshift
            omega
      · exact ih hranges hback hmem

/-- A split point can be the end of the first range. -/
lemma safeSplitRanges_of_isSplitPoint {addedTokens : List (List UInt8 × Bool)} {bytes : List UInt8}
    {q : ℕ} (h : isSplitPoint addedTokens bytes q = true) (hpos : 0 < q)
    (hlen : q + 1 < bytes.length) : ∃ ranges, (∀ range ∈ ranges, q ≤ range.1) ∧
      safeSplitRanges addedTokens bytes q = (0, q) :: ranges := by
  obtain ⟨n, hn⟩ : ∃ n, bytes.length = n + 1 := ⟨bytes.length - 1, by omega⟩
  have hprobe : probeFrom addedTokens bytes bytes.length (0 + q) = some q := by
    rw [hn, probeFrom, Nat.zero_add, if_pos hlen, if_pos h]
  refine ⟨chunksFrom addedTokens bytes q n q, ?_, ?_⟩
  · exact (chunksFrom_consecutive hpos (by omega) (by omega)).le_fst
  · have hchunks : chunksFrom addedTokens bytes (max q 1) bytes.length 0 =
        (0, q) :: chunksFrom addedTokens bytes q n q := by
      rw [max_eq_left hpos, hn, chunksFrom, if_pos (by omega), hprobe]
    rw [safeSplitRanges, hchunks]
    rfl

/-- The ranges follow each other and cover the input. -/
lemma consecutive_safeSplitRanges (addedTokens : List (List UInt8 × Bool)) (bytes : List UInt8)
    (target : ℕ) : bytes = [] ∧ safeSplitRanges addedTokens bytes target = [(0, 0)] ∨
      Consecutive 0 bytes.length (safeSplitRanges addedTokens bytes target) := by
  have hcover : Consecutive 0 bytes.length (chunksFrom addedTokens bytes (max target 1)
      bytes.length 0) := chunksFrom_consecutive (by omega) (Nat.zero_le _) le_rfl
  rw [safeSplitRanges]
  split_ifs with hempty
  · rw [List.isEmpty_iff.mp hempty] at hcover
    refine .inl ⟨List.length_eq_zero_iff.mp ?_, rfl⟩
    generalize bytes.length = len at hcover
    cases hcover
    rfl
  · exact .inr hcover

/-- For all targets the parts have what the input has, if and only if no split point lies inside of
an added token that the pass over the input finds. -/
lemma foundInRanges_eq_iff (hp : p.Spelled) (hplain : p.Plain) (tables : UnicodeTables)
    (scheme : PretokenizerType) (data : NfcData) (x : List Char) :
    (∀ target, p.foundInRanges tables scheme data (textBytes x)
        (safeSplitRanges p.addedTokenSplitBlockers (textBytes x) target) =
          p.found tables scheme data (textBytes x)) ↔
      ∀ q, isSplitPoint p.addedTokenSplitBlockers (textBytes x) q = true →
        ∀ found, p.found tables scheme data (textBytes x) = some found →
          ∀ id start stop, .added id start stop ∈ found → ¬ (start < q ∧ q < stop) := by
  obtain ⟨ps, hpass, hfound⟩ := found_text hp hplain tables scheme data x
  rw [hfound]
  constructor
  · rintro hexact q hq found hsame id start stop hmem ⟨hstart, hstop⟩
    obtain rfl := Option.some_inj.mp hsame
    obtain ⟨u, e, v, he, rfl, hlen, hnext, -⟩ := exists_border hq
    have hpos : 0 < q := by
      rw [← hlen]
      exact List.length_pos_iff.mpr (textBytes_eq_nil.not.mpr (by simp))
    obtain ⟨ranges, hranges, hsplit⟩ := safeSplitRanges_of_isSplitPoint hq hpos hnext
    have h := hexact q
    rw [hsplit, foundInRanges_cons, Option.bind_eq_some_iff] at h
    obtain ⟨front, hfront, h⟩ := h
    obtain ⟨back, hback, happend⟩ := Option.map_eq_some_iff.mp h
    rw [← happend] at hmem
    rcases List.mem_append.mp hmem with hmem | hmem
    · obtain ⟨ps', hpass', hfound'⟩ := found_text hp hplain tables scheme data (u ++ [e])
      have hslice : ((textBytes (u ++ [e] ++ ' ' :: v)).take q).drop 0 = textBytes (u ++ [e]) := by
        rw [List.drop_zero, textBytes_append (u ++ [e]), ← hlen, List.take_left]
      rw [hslice, hfound', Option.map_some, Option.some_inj] at hfront
      rw [← hfront, List.mem_map] at hmem
      obtain ⟨found', hmem', hshift⟩ := hmem
      cases found' with
      | pretoken start' bytes => cases hshift
      | added id' start' stop' =>
          rw [Found.shift, Found.added.injEq] at hshift
          have := hpass'.added_le (mem_found_iff.mp hmem')
          omega
    · exact absurd hstart (Nat.not_lt.mpr (le_of_mem_foundInRanges hranges hback hmem))
  · intro hcross target
    exact foundInRanges_safeSplitRanges hp hplain target hpass fun q hq id start stop hmem =>
      hcross q hq _ rfl id start stop (mem_found_iff.mpr hmem)

/-- A pipeline with added tokens that can overlap themselves. -/
def overlappingPipeline : Pipeline where
  addedTokens := [⟨⟨[97, 32, 97], 0⟩, false, false⟩, ⟨⟨[98, 32, 32, 98], 1⟩, false, false⟩]
  normalizeNfc := false
  addPrefixSpace := false
  content_ne := by simp

lemma overlappingPipeline_spelled : overlappingPipeline.Spelled := by
  simp only [Spelled, overlappingPipeline, List.mem_cons, List.not_mem_nil, or_false,
    forall_eq_or_imp, forall_eq]
  exact ⟨⟨['a', ' ', 'a'], by decide⟩, ⟨['b', ' ', ' ', 'b'], by decide⟩⟩

end Pipeline

end Hypertok
