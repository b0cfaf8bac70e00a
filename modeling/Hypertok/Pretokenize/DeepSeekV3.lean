import Hypertok.Pretokenize.DeepSeekSplits

/-!
The scanner of `deepseek_v3.rs`, which reads a text once, with a flag for the region.

* `advanceMain_at`, `advanceCjk_at`: it ends a token where the main regex does in the region.
* `pretokens_referenceTokens`: the walk from position 0 gives the pieces of the three splits.
-/

namespace Hypertok

open Machine Regex

namespace DeepSeekV3

variable (table : DeepSeekTable)

/-! ### The scanner -/

/-- `DsCharClass::Letter | DsCharClass::Mark`. -/
def isLm (cp : ℕ) : Bool := table.classOf cp = .letter || table.classOf cp = .mark

/-- `lm_end_at`. -/
def lmEndAt (bytes : List UInt8) (pos : ℕ) (cjkRegion : Bool) : Option (Option ℕ) :=
  match bytes[pos]? with
  | none => some none
  | some b =>
      if b < 0x80 then some (if !cjkRegion && isLetter b then some (pos + 1) else none)
      else do
        let (cp, l) ← decodeCp bytes pos
        return if isDeepseekCjk cp = cjkRegion ∧ isLm table cp then some (pos + l) else none

/-- One turn of a scan: a run of ASCII, and one character that is not. -/
def memberStep (ascii : List UInt8 → ℕ → Option ℕ) (member : ℕ → Bool) (bytes : List UInt8)
    (pos : ℕ) : Option (ℕ ⊕ ℕ) := do
  let p ← ascii bytes pos
  match bytes[p]? with
  | none => some (.inr p)
  | some b =>
      if b < 0x80 then some (.inr p)
      else do
        let (cp, l) ← decodeCp bytes p
        return if member cp then .inl (p + l) else .inr p

/-- A scan. -/
def scanMembers (ascii : List UInt8 → ℕ → Option ℕ) (member : ℕ → Bool) (bytes : List UInt8)
    (pos : ℕ) : Option ℕ :=
  loop (memberStep ascii member bytes) (bytes.length + 1) pos

/-- `scan_lm_from`. -/
def scanLmFrom (bytes : List UInt8) (pos : ℕ) (cjkRegion : Bool) : Option ℕ :=
  scanMembers (if cjkRegion then fun _ p => some p else swarScanLetters)
    (fun cp => isDeepseekCjk cp = cjkRegion && isLm table cp) bytes pos

/-- `scan_ps_from`. -/
def scanPsFrom (bytes : List UInt8) (pos : ℕ) (cjkRegion : Bool) : Option ℕ :=
  scanMembers (if cjkRegion then fun _ p => some p else skipWhile isAsciiPunctuation)
    (fun cp => isDeepseekCjk cp = cjkRegion && table.classOf cp = .punctSym) bytes pos

/-- `at_boundary`, of the character at which the loop of `ws_token_end` breaks. -/
def atBoundary (bytes : List UInt8) (pos : ℕ) : Option Bool :=
  match bytes[pos]? with
  | none => some false
  | some b =>
      if b < 0x80 then some (isDigit b)
      else do
        let (cp, _) ← decodeCp bytes pos
        return table.classOf cp = .number || isDeepseekCjk cp

/-- `ws_token_end`. -/
def wsTokenEnd (bytes : List UInt8) (start : ℕ) : Option ℕ := do
  let st ← loop (Cl100kFamily.wsStep table.marksJoin bytes) (bytes.length + 1) ⟨start, 0, start⟩
  let boundary ← atBoundary table bytes st.p
  return if st.lastNlEnd ≠ 0 then st.lastNlEnd
    else if bytes.length ≤ st.p ∨ boundary then st.p
    else if start < st.lastCharStart then st.lastCharStart
    else st.p

/-- The character at `p`, whose first byte is `b`. -/
def readCp (bytes : List UInt8) (p : ℕ) (b : UInt8) : Option (ℕ × ℕ) :=
  if b < 0x80 then some (b.toNat, 1) else decodeCp bytes p

/-- One turn of the loop of `scan_gap_from`. -/
def gapStep (cjkRegion : Bool) (bytes : List UInt8) (p : ℕ) : Option (ℕ ⊕ ℕ) :=
  match bytes[p]? with
  | none => some (.inr p)
  | some b => do
      let (cp, l) ← readCp bytes p b
      if isDeepseekCjk cp ≠ cjkRegion ∨ table.classOf cp ≠ .other then return .inr p
      else
        return match ← lmEndAt table bytes (p + l) cjkRegion with
          | some _ => .inr p
          | none => .inl (p + l)

/-- `scan_gap_from`. -/
def scanGapFrom (bytes : List UInt8) (pos firstLen : ℕ) (cjkRegion : Bool) : Option ℕ :=
  loop (gapStep table cjkRegion bytes) (bytes.length + 1) (pos + firstLen)

/-- `scan_newlines`, behind `scan_ps_from`. -/
def psToken (bytes : List UInt8) (pos : ℕ) : Option ℕ := do
  scanNewlines bytes (← scanPsFrom table bytes pos false)

/-- A run of letters and marks, if there is one; otherwise what follows in the source. -/
def lmOr (bytes : List UInt8) (pos : ℕ) (cjkRegion : Bool) (otherwise : Option ℕ) : Option ℕ := do
  match ← lmEndAt table bytes pos cjkRegion with
  | some e => scanLmFrom table bytes e cjkRegion
  | none => otherwise

/-- `advance_main`, behind a space and a character that ends at `p₁`. -/
def advanceSpaceClass (bytes : List UInt8) (pos p₁ : ℕ) : DsCharClass → Option ℕ
  | .letter | .mark => scanLmFrom table bytes p₁ false
  | .number => some (pos + 1)
  | .whitespace => wsTokenEnd table bytes pos
  | .punctSym => psToken table bytes p₁
  | .other => some (pos + 1)

/-- `advance_main`, behind a space. -/
def advanceSpace (bytes : List UInt8) (pos : ℕ) : Option ℕ :=
  match bytes[pos + 1]? with
  | none => some (pos + 1)
  | some b₁ =>
      if isLetter b₁ then scanLmFrom table bytes (pos + 2) false
      else if b₁ < 0x80 then
        if isDigit b₁ then some (pos + 1)
        else if isAsciiPunctuation b₁ then psToken table bytes (pos + 2)
        else if isAsciiWs b₁ then wsTokenEnd table bytes pos
        else some (pos + 1)
      else do
        let (cp, l) ← decodeCp bytes (pos + 1)
        if isDeepseekCjk cp then return pos + 1
        else advanceSpaceClass table bytes pos (pos + 1 + l) (table.classOf cp)

/-- `advance_main`, at a byte of ASCII that is neither a letter nor a space. -/
def advanceAscii (bytes : List UInt8) (pos : ℕ) (b₀ : UInt8) : Option ℕ :=
  if b₀ = 13 ∨ b₀ = 10 then wsTokenEnd table bytes pos
  else if isAsciiWs b₀ then lmOr table bytes (pos + 1) false (wsTokenEnd table bytes pos)
  else if isAsciiPunctuation b₀ then
    if (bytes[pos + 1]?).any isLetter then swarScanLetters bytes (pos + 1)
    else psToken table bytes (pos + 1)
  else lmOr table bytes (pos + 1) false (scanGapFrom table bytes pos 1 false)

/-- `advance_main`, at a character that is not ASCII and has `l` bytes. -/
def advanceNonAscii (bytes : List UInt8) (pos l : ℕ) : DsCharClass → Option ℕ
  | .letter | .mark => scanLmFrom table bytes (pos + l) false
  | .whitespace => lmOr table bytes (pos + l) false (wsTokenEnd table bytes pos)
  | .punctSym => psToken table bytes (pos + l)
  | .number | .other => lmOr table bytes (pos + l) false (scanGapFrom table bytes pos l false)

/-- `advance_main`. -/
def advanceMain (bytes : List UInt8) (pos : ℕ) : Option ℕ := do
  let b₀ ← bytes[pos]?
  if isLetter b₀ then scanLmFrom table bytes (pos + 1) false
  else if b₀ = 32 then advanceSpace table bytes pos
  else if b₀ < 0x80 then advanceAscii table bytes pos b₀
  else do
    let (cp, l) ← decodeCp bytes pos
    advanceNonAscii table bytes pos l (table.classOf cp)

/-- `advance_cjk`. -/
def advanceCjk (bytes : List UInt8) (pos : ℕ) : Option ℕ := do
  let (cp, l) ← decodeCp bytes pos
  match table.classOf cp with
  | .letter | .mark => scanLmFrom table bytes (pos + l) true
  | .punctSym => scanPsFrom table bytes (pos + l) true
  | _ => lmOr table bytes (pos + l) true (scanGapFrom table bytes pos l true)

/-- `advance_pos`. -/
def advancePos (bytes : List UInt8) (pos : ℕ) : Option ℕ := do
  let b₀ ← bytes[pos]?
  if b₀ < 0x80 then
    if isDigit b₀ then scanNumbersMax3 table.marksJoin bytes (pos + 1) 1
    else advanceMain table bytes pos
  else do
    let (cp, l) ← decodeCp bytes pos
    if isDeepseekCjk cp then advanceCjk table bytes pos
    else if table.classOf cp = .number then scanNumbersMax3 table.marksJoin bytes (pos + l) 1
    else advanceMain table bytes pos

/-! ### The scans in a region -/

variable {table} {bytes : List UInt8} {pos p : ℕ} {c : Char} {t u rest : List Char} {cjkRegion : Bool}

lemma isCjk_ascii (hc : c.toNat < 0x80) : isCjk c = false := by
  rw [isCjk, isDeepseekCjk, Bool.eq_false_iff]
  simp only [ne_eq, Bool.or_eq_true, Bool.and_eq_true, decide_eq_true_eq]
  omega

lemma isLmChar_eq_isA (table : DeepSeekTable) (c : Char) :
    isLmChar table c = table.marksJoin.isA .letter c := by
  cases hcls : table.classOf c.toNat <;>
    rw [isLmChar_eq hcls, DsClassTable.isA_marksJoin hcls] <;> rfl

lemma isLetter_ascii (table : DeepSeekTable) (hc : c.toNat < 0x80) :
    isLetter (UInt8.ofNat c.toNat) = isLmChar table c := by
  rw [isLmChar_eq_isA, recognizes_isLetter.isA_eq table.marksJoin hc]

lemma isDigit_ascii (table : DeepSeekTable) (hc : c.toNat < 0x80) :
    isDigit (UInt8.ofNat c.toNat) = table.isA .number c := by
  rw [← isA_number_marksJoin, recognizes_isDigit.isA_eq table.marksJoin hc]

lemma isAsciiWs_ascii (table : DeepSeekTable) (hc : c.toNat < 0x80) :
    isAsciiWs (UInt8.ofNat c.toNat) = table.isA .whitespace c := by
  rw [← isA_whitespace_marksJoin, recognizes_isAsciiWs.isA_eq table.marksJoin hc]

lemma isAsciiPunctuation_ascii (table : DeepSeekTable) (hc : c.toNat < 0x80) :
    isAsciiPunctuation (UInt8.ofNat c.toNat) = table.isA .punctSym c := by
  rw [Bool.eq_iff_iff, ← table.punct _ hc]
  exact decide_eq_true_iff.symm

/-- Where a run stops at the end of a part. -/
lemma dropWhile_append_of_head {q : Char → Bool} (h : ∀ c ∈ rest.head?, q c = false) :
    (u ++ rest).dropWhile q = u.dropWhile q ++ rest := by
  induction u with
  | nil => exact dropWhile_eq_self h
  | cons c u ih =>
      rw [List.cons_append]
      by_cases hc : q c = true
      · rw [List.dropWhile_cons_of_pos hc, List.dropWhile_cons_of_pos hc, ih]
      · rw [List.dropWhile_cons_of_neg hc, List.dropWhile_cons_of_neg hc, List.cons_append]

/-- A run with a test of the region is the run in the region. -/
lemma dropWhile_region {q : Char → Bool} (hq : ∀ c, q c = true → table.isA .number c = false)
    (hu : ∀ c ∈ u, inRegion table cjkRegion c = true)
    (hrest : ∀ c ∈ rest.head?, inRegion table cjkRegion c = false) :
    (u ++ rest).dropWhile (fun c => isCjk c = cjkRegion && q c) = u.dropWhile q ++ rest := by
  have hcongr : u.dropWhile (fun c => isCjk c = cjkRegion && q c) = u.dropWhile q := by
    induction u with
    | nil => rfl
    | cons c u ih =>
        obtain ⟨hc, hu⟩ := List.forall_mem_cons.mp hu
        have hregion : decide (isCjk c = cjkRegion) = true := (Bool.and_eq_true_iff.mp hc).1
        rw [List.dropWhile_cons, List.dropWhile_cons, hregion, Bool.true_and, ih hu]
  rw [dropWhile_append_of_head, hcongr]
  intro c hc
  refine Bool.eq_false_iff.mpr fun hboth => ?_
  obtain ⟨hregion, hclass⟩ := Bool.and_eq_true_iff.mp hboth
  have hnot := hrest c hc
  rw [inRegion, hregion, hq c hclass] at hnot
  cases hnot

/-- A scan ends behind the members. -/
lemma scanMembers_at {ascii : List UInt8 → ℕ → Option ℕ} {member : ℕ → Bool} {q : Char → Bool}
    (hascii : ∀ p u, At bytes p u → ∃ p', ascii bytes p = some p' ∧
      At bytes p' (u.dropWhile fun c => decide (c.toNat < 0x80) && q c))
    (hmember : ∀ c : Char, 0x80 ≤ c.toNat → member c.toNat = q c) (h : At bytes pos t) :
    ∃ p', scanMembers ascii member bytes pos = some p' ∧ At bytes p' (t.dropWhile q) := by
  have hstep : ∀ m p, (∃ u, At bytes p u ∧ u.length = m ∧ u.dropWhile q = t.dropWhile q) →
      (∃ p', memberStep ascii member bytes p = some (.inl p') ∧ ∃ k < m, ∃ u, At bytes p' u ∧
        u.length = k ∧ u.dropWhile q = t.dropWhile q) ∨
      ∃ p', memberStep ascii member bytes p = some (.inr p') ∧ At bytes p' (t.dropWhile q) := by
    rintro m p ⟨u, hu, rfl, hdrop⟩
    obtain ⟨p', hp', hv⟩ := hascii p u hu
    have hlater := dropWhile_dropWhile (p := fun c => decide (c.toNat < 0x80) && q c)
      (q := q) (fun c hc => (Bool.and_eq_true_iff.mp hc).2) u
    have hshort := List.length_dropWhile_le (fun c : Char => decide (c.toNat < 0x80) && q c) u
    have hhead : ∀ c ∈ (u.dropWhile fun c => decide (c.toNat < 0x80) && q c).head?,
        (decide (c.toNat < 0x80) && q c) = false := fun c => of_mem_head?_dropWhile
    generalize (u.dropWhile fun c => decide (c.toNat < 0x80) && q c) = v at hv hlater hshort hhead
    rw [hdrop] at hlater
    rw [memberStep, hp', Option.bind_eq_bind, Option.bind_some]
    cases v with
    | nil =>
        rw [hv.nil]
        exact .inr ⟨p', rfl, hlater ▸ hv⟩
    | cons c v =>
        have hstop : q c = false → At bytes p' (t.dropWhile q) := by
          intro hc
          rw [← hlater, List.dropWhile_cons_of_neg (by rw [hc]; exact Bool.false_ne_true)]
          exact hv
        by_cases hc : c.toNat < 0x80
        · have hclass := hhead c rfl
          rw [decide_eq_true hc, Bool.true_and] at hclass
          rw [(hv.ascii hc).1]
          dsimp only
          rw [if_pos (UInt8.not_le.mp (not_le_ofNat hc))]
          exact .inr ⟨p', rfl, hstop hclass⟩
        · obtain ⟨⟨b, hget, hge⟩, l, hdecode, hnext⟩ := decodeCp_at hv (Nat.not_lt.mp hc)
          rw [hget]
          dsimp only
          rw [if_neg (UInt8.not_lt.mpr hge), hdecode, Option.bind_eq_bind, Option.bind_some,
            hmember c (Nat.not_lt.mp hc)]
          cases hclass : q c with
          | true =>
              rw [List.dropWhile_cons_of_pos hclass] at hlater
              rw [List.length_cons] at hshort
              exact .inl ⟨_, rfl, v.length, by omega, v, hnext, rfl, hlater⟩
          | false => exact .inr ⟨p', rfl, hstop hclass⟩
  exact loop_eq_some hstep ⟨t, h, rfl, rfl⟩ (Nat.lt_succ_of_le h.length_le)

/-- The run of ASCII of a scan, which the CJK region has none of. -/
lemma asciiRun_at {ascii : List UInt8 → ℕ → Option ℕ} {cond : UInt8 → Bool} {q : Char → Bool}
    (hrun : ∀ p ≤ bytes.length, ascii bytes p = some (runEnd cond bytes p))
    (hcond : ∀ c : Char, c.toNat < 0x80 → cond (UInt8.ofNat c.toNat) = q c)
    (hlow : ∀ b, cond b = true → b < 0x80) (h : At bytes p u) :
    ∃ p', (if cjkRegion then fun _ p => some p else ascii) bytes p = some p' ∧
      At bytes p' (u.dropWhile fun c =>
        decide (c.toNat < 0x80) && (isCjk c = cjkRegion && q c)) := by
  cases cjkRegion with
  | true =>
      refine ⟨p, rfl, ?_⟩
      rw [dropWhile_eq_self]
      · exact h
      · intro c _
        by_cases hc : c.toNat < 0x80
        · have hregion : decide (false = true) = false := rfl
          rw [isCjk_ascii hc, hregion, Bool.false_and, Bool.and_false]
        · rw [decide_eq_false hc, Bool.false_and]
  | false =>
      refine ⟨_, hrun p h.le, h.runEnd (fun c hc => ?_) hlow⟩
      rw [isCjk_ascii hc, decide_eq_true rfl, Bool.true_and, hcond c hc]

section

variable (hu : ∀ c ∈ u, inRegion table cjkRegion c = true)
  (hrest : ∀ c ∈ rest.head?, inRegion table cjkRegion c = false)
include hu hrest

lemma scanLmFrom_at (h : At bytes pos (u ++ rest)) :
    ∃ q, scanLmFrom table bytes pos cjkRegion = some q ∧
      At bytes q (u.dropWhile (isLmChar table) ++ rest) := by
  have hnumber : ∀ c, isLmChar table c = true → table.isA .number c = false := by
    intro c hc
    cases hcls : table.classOf c.toNat with
    | number =>
        rw [isLmChar_eq hcls] at hc
        cases hc
    | _ => exact DsClassTable.isA_eq hcls .number
  rw [← dropWhile_region hnumber hu hrest]
  refine scanMembers_at (fun p u hp => ?_) (fun c _ => rfl) h
  exact asciiRun_at (fun _ => swarScanLetters_eq) (fun c => isLetter_ascii table)
    (fun _ => recognizes_isLetter.lt) hp

lemma scanPsFrom_at (h : At bytes pos (u ++ rest)) :
    ∃ q, scanPsFrom table bytes pos cjkRegion = some q ∧
      At bytes q (u.dropWhile (table.isA .punctSym) ++ rest) := by
  have hnumber : ∀ c, table.isA .punctSym c = true → table.isA .number c = false := by
    intro c hc
    rw [DsClassTable.isA_eq (of_decide_eq_true hc)]
    rfl
  have hlow : ∀ b, isAsciiPunctuation b = true → b < 0x80 := by
    intro b hb
    have hall : ∀ n < 256, isAsciiPunctuation (UInt8.ofNat n) = true → n < 0x80 := by
      decide +kernel
    have hbyte := hall b.toNat b.toNat_lt
    rw [UInt8.ofNat_toNat] at hbyte
    exact UInt8.lt_iff_toNat_lt.mpr (hbyte hb)
  rw [← dropWhile_region hnumber hu hrest]
  refine scanMembers_at (fun p u hp => ?_) (fun c _ => rfl) h
  exact asciiRun_at (fun _ => skipWhile_eq isAsciiPunctuation)
    (fun c => isAsciiPunctuation_ascii table) hlow hp

/-- A letter or a mark of the region. -/
lemma lmEndAt_at (h : At bytes pos (u ++ rest)) :
    (∃ d u' q, u = d :: u' ∧ isLmChar table d = true ∧
      lmEndAt table bytes pos cjkRegion = some (some q) ∧ At bytes q (u' ++ rest)) ∨
    lmEndAt table bytes pos cjkRegion = some none ∧ lmRest table u = none := by
  have htext : ∀ t, At bytes pos t →
      (∃ d t' q, t = d :: t' ∧ isCjk d = cjkRegion ∧ isLmChar table d = true ∧
        lmEndAt table bytes pos cjkRegion = some (some q) ∧ At bytes q t') ∨
      lmEndAt table bytes pos cjkRegion = some none ∧
        ∀ d ∈ t.head?, ¬ (isCjk d = cjkRegion ∧ isLmChar table d = true) := by
    intro t h
    cases t with
    | nil => exact .inr ⟨by rw [lmEndAt, h.nil], fun d hd => absurd hd (Option.not_mem_none d)⟩
    | cons d t =>
        by_cases hd : d.toNat < 0x80
        · obtain ⟨hget, hnext⟩ := h.ascii hd
          rw [lmEndAt, hget]
          dsimp only
          rw [if_pos (UInt8.not_le.mp (not_le_ofNat hd)), isLetter_ascii table hd]
          by_cases hboth : isCjk d = cjkRegion ∧ isLmChar table d = true
          · obtain ⟨rfl, hlm⟩ := hboth
            rw [isCjk_ascii hd, hlm]
            exact .inl ⟨d, t, _, rfl, isCjk_ascii hd, hlm, rfl, hnext⟩
          · refine .inr ⟨?_, fun d' hd' => ?_⟩
            · rw [isCjk_ascii hd] at hboth
              rw [if_neg]
              intro hcond
              obtain ⟨hregion, hlm⟩ := Bool.and_eq_true_iff.mp hcond
              exact hboth ⟨((Bool.not_eq_true' _).mp hregion).symm, hlm⟩
            · rwa [← Option.some_inj.mp hd']
        · obtain ⟨⟨b, hget, hge⟩, l, hdecode, hnext⟩ := decodeCp_at h (Nat.not_lt.mp hd)
          rw [lmEndAt, hget]
          dsimp only
          rw [if_neg (UInt8.not_lt.mpr hge), hdecode, Option.bind_eq_bind, Option.bind_some]
          dsimp only
          by_cases hboth : isCjk d = cjkRegion ∧ isLmChar table d = true
          · have hcond : isDeepseekCjk d.toNat = cjkRegion ∧ isLm table d.toNat = true := hboth
            rw [if_pos hcond]
            exact .inl ⟨d, t, _, rfl, hboth.1, hboth.2, rfl, hnext⟩
          · have hcond : ¬ (isDeepseekCjk d.toNat = cjkRegion ∧ isLm table d.toNat = true) := hboth
            rw [if_neg hcond]
            refine .inr ⟨rfl, fun d' hd' => ?_⟩
            rwa [← Option.some_inj.mp hd']
  obtain ⟨d, t', q, ht, hcjk, hlm, hend, hq⟩ | ⟨hend, hnone⟩ := htext _ h
  · cases u with
    | nil =>
        have hhead : rest = d :: t' := ht
        have hregion := hrest d (by rw [hhead]; rfl)
        have hnumber : table.isA .number d = false := by
          cases hcls : table.classOf d.toNat with
          | number =>
              rw [isLmChar_eq hcls] at hlm
              cases hlm
          | _ => exact DsClassTable.isA_eq hcls .number
        rw [inRegion, decide_eq_true hcjk, hnumber] at hregion
        cases hregion
    | cons e u =>
        obtain ⟨rfl, rfl⟩ := List.cons.inj ht
        exact .inl ⟨e, u, q, rfl, hlm, hend, hq⟩
  · refine .inr ⟨hend, ?_⟩
    cases u with
    | nil => rfl
    | cons d u =>
        have hregion : isCjk d = cjkRegion :=
          of_decide_eq_true (Bool.and_eq_true_iff.mp (hu d List.mem_cons_self)).1
        rw [lmRest, if_neg fun hlm => hnone d rfl ⟨hregion, hlm⟩]

end

/-! ### The tokens of spaces, and the gaps -/

section

variable (hu : ∀ c ∈ u, inRegion table false c = true)
  (hrest : ∀ c ∈ rest.head?, inRegion table false c = false)

/-- At the end of a region is a number or a character of the CJK ranges. -/
lemma boundary_of_not_inRegion (h : inRegion table false c = false) :
    isCjk c = true ∨ table.isA .number c = true := by
  rw [inRegion] at h
  cases hcjk : isCjk c with
  | true => exact .inl rfl
  | false =>
      rw [hcjk, decide_eq_true rfl, Bool.true_and, Bool.not_eq_false'] at h
      exact .inr h

lemma not_whitespace_of_not_inRegion (h : inRegion table false c = false) :
    table.isA .whitespace c = false := by
  obtain hcjk | hnumber := boundary_of_not_inRegion h
  · exact decide_eq_false (table.cjk _ hcjk).2
  · rw [DsClassTable.isA_eq (of_decide_eq_true hnumber)]
    rfl

lemma isNewline_of_not_inRegion (h : inRegion table false c = false) : isNewline c = false := by
  refine @isNewline_eq_false table _ _ rfl fun hcls => ?_
  have hnot := not_whitespace_of_not_inRegion h
  rw [DsClassTable.isA_eq hcls] at hnot
  cases hnot

lemma afterNewline_append (hW : ∀ d ∈ rest.head?, table.marksJoin.isA .whitespace d = false)
    (t : List Char) : Cl100kFamily.afterNewline table.marksJoin (t ++ rest) =
      (Cl100kFamily.afterNewline table.marksJoin t).map (· ++ rest) := by
  induction t with
  | nil => exact Cl100kFamily.afterNewline_eq_none hW
  | cons c t ih =>
      rw [List.cons_append, Cl100kFamily.afterNewline, Cl100kFamily.afterNewline, ih]
      split_ifs
      · cases Cl100kFamily.afterNewline table.marksJoin t <;> rfl
      · cases Cl100kFamily.afterNewline table.marksJoin t <;> rfl
      · rfl

lemma spacesRest_append (hne : u.dropWhile (table.marksJoin.isA .whitespace) ≠ []) :
    spacesRest table.marksJoin (u ++ rest) = spacesRest table.marksJoin u ++ rest := by
  have hdrop : (u ++ rest).dropWhile (table.marksJoin.isA .whitespace) =
      u.dropWhile (table.marksJoin.isA .whitespace) ++ rest := by
    rw [List.dropWhile_append, if_neg (by rwa [List.isEmpty_iff])]
  have htake : (u ++ rest).takeWhile (table.marksJoin.isA .whitespace) =
      u.takeWhile (table.marksJoin.isA .whitespace) := by
    have hsplit := List.takeWhile_append_dropWhile (p := table.marksJoin.isA .whitespace) (l := u ++ rest)
    rw [hdrop, ← List.append_assoc] at hsplit
    have hself := List.takeWhile_append_dropWhile (p := table.marksJoin.isA .whitespace) (l := u)
    have hfront := List.append_cancel_right hsplit
    exact List.append_cancel_right (hfront.trans hself.symm)
  rw [spacesRest, spacesRest, hdrop, htake, if_neg hne,
    if_neg (List.append_ne_nil_of_left_ne_nil hne rest)]
  cases (u.takeWhile (table.marksJoin.isA .whitespace)).getLast? <;> rfl

include hu hrest

/-- The flag at the end of the spaces. -/
lemma atBoundary_at (h : At bytes pos (u ++ rest)) :
    (u = [] ∧ (bytes.length ≤ pos ∨ atBoundary table bytes pos = some true) ∧
      ∃ b, atBoundary table bytes pos = some b) ∨
    u ≠ [] ∧ ¬ bytes.length ≤ pos ∧ atBoundary table bytes pos = some false := by
  have hread : ∀ d t, At bytes pos (d :: t) →
      atBoundary table bytes pos = some (table.isA .number d || isCjk d) := by
    intro d t h
    by_cases hd : d.toNat < 0x80
    · rw [atBoundary, (h.ascii hd).1, isCjk_ascii hd, Bool.or_false, ← isDigit_ascii table hd]
      exact if_pos (UInt8.not_le.mp (not_le_ofNat hd))
    · obtain ⟨⟨b, hget, hge⟩, l, hdecode, -⟩ := decodeCp_at h (Nat.not_lt.mp hd)
      rw [atBoundary, hget]
      dsimp only
      rw [if_neg (UInt8.not_lt.mpr hge), hdecode]
      rfl
  cases u with
  | nil =>
      refine .inl ⟨rfl, ?_⟩
      cases rest with
      | nil =>
          refine ⟨.inl ((Cl100kFamily.length_le_iff_of_at h).mpr rfl), false, ?_⟩
          rw [atBoundary, At.nil h]
      | cons d rest =>
          have hflag : atBoundary table bytes pos = some true := by
            rw [hread d rest h]
            obtain hcjk | hnumber := boundary_of_not_inRegion (hrest d rfl)
            · rw [hcjk, Bool.or_true]
            · rw [hnumber, Bool.true_or]
          exact ⟨.inr hflag, true, hflag⟩
  | cons d u =>
      have hd := hu d List.mem_cons_self
      have hcjk : isCjk d = false := of_decide_eq_true (Bool.and_eq_true_iff.mp hd).1
      refine .inr ⟨List.cons_ne_nil d u, ?_, ?_⟩
      · exact mt (Cl100kFamily.length_le_iff_of_at h).mp (List.cons_ne_nil _ _)
      · rw [hread d _ h, isA_number_of_inRegion hd, hcjk]
        rfl

/-- A token of spaces ends where the alternatives of the regex do in the region. -/
lemma wsTokenEnd_at (h : At bytes pos (c :: (u ++ rest))) (hc : table.isA .whitespace c = true) :
    ∃ q, wsTokenEnd table bytes pos = some q ∧
      At bytes q (Cl100kFamily.wsRest table.marksJoin false c u ++ rest) := by
  have hspace : table.marksJoin.isA .whitespace c = true := by rwa [isA_whitespace_marksJoin]
  have hW : ∀ d ∈ rest.head?, table.marksJoin.isA .whitespace d = false := fun d hd => by
    rw [isA_whitespace_marksJoin]
    exact not_whitespace_of_not_inRegion (hrest d hd)
  obtain ⟨st, hst, hread⟩ := Cl100kFamily.wsLoop_at h hspace
  have hwhole := Cl100kFamily.wsTokenEnd_at false h hspace
  have hat := hread.at_p
  have hnl := hread.newline
  have hdrop : ∀ d ∈ u.dropWhile (table.marksJoin.isA .whitespace), inRegion table false d = true :=
    fun d hd => hu d ((List.dropWhile_suffix _).subset hd)
  rw [dropWhile_append_of_head hW] at hat hnl
  rw [← List.cons_append, afterNewline_append hW, afterNewline_append hW,
    Cl100kFamily.afterNewline_eq_none (t := u.dropWhile _) fun d hd => of_mem_head?_dropWhile hd,
    Option.map_none] at hnl
  simp only [Option.none_or] at hnl
  have hend := atBoundary_at hdrop hrest hat
  have hflag : ∃ b, atBoundary table bytes st.p = some b := by
    obtain ⟨-, -, hflag⟩ | ⟨-, -, hflag⟩ := hend
    · exact hflag
    · exact ⟨_, hflag⟩
  obtain ⟨b, hflag⟩ := hflag
  have hside : ¬ (false = true ∧ u.dropWhile (table.marksJoin.isA .whitespace) = []) :=
    fun h => Bool.false_ne_true h.1
  rw [wsTokenEnd, hst, Option.bind_eq_bind, Option.bind_some, hflag, Option.bind_eq_bind,
    Option.bind_some, Cl100kFamily.wsRest, if_neg hside]
  obtain ⟨hzero, hnone⟩ | ⟨r, hr, hne, hsome⟩ := hnl
  · rw [if_neg (not_not_intro hzero), Option.map_eq_none_iff.mp hnone, Option.getD_none]
    obtain ⟨hnil, hstop, -⟩ | ⟨hne, hlen, hfalse⟩ := hend
    · have hcond : bytes.length ≤ st.p ∨ b = true := hstop.imp_right fun htrue =>
        Option.some_inj.mp (hflag.symm.trans htrue)
      rw [if_pos hcond, spacesRest, if_pos hnil]
      exact ⟨_, rfl, hnil ▸ hat⟩
    · obtain rfl := Option.some_inj.mp (hflag.symm.trans hfalse)
      have hcond : ¬ (bytes.length ≤ st.p ∨ false = true) := by simp [hlen]
      rw [Cl100kFamily.wsTokenEnd, hst, Option.bind_eq_bind, Option.bind_some,
        Cl100kFamily.wsRest, ← List.cons_append, afterNewline_append hW,
        Option.map_eq_none_iff.mp hnone, Option.map_none, Option.getD_none,
        spacesRest_append hne] at hwhole
      simp only [Bool.false_eq_true, false_and, if_false, hzero, ne_eq, not_true_eq_false, hlen]
        at hwhole
      rw [if_neg hcond]
      exact hwhole
  · obtain ⟨r', hr', rfl⟩ := Option.map_eq_some_iff.mp hsome
    rw [if_pos hne, hr', Option.getD_some]
    exact ⟨_, rfl, hr⟩

/-- A run of punctuation and its newlines. -/
lemma psToken_at (h : At bytes pos (u ++ rest)) :
    ∃ q, psToken table bytes pos = some q ∧ At bytes q (psRest table u ++ rest) := by
  obtain ⟨p, hp, hat⟩ := scanPsFrom_at hu hrest h
  obtain ⟨q, hq, hrest'⟩ := scanNewlines_at hat
  rw [dropWhile_append_of_head fun d hd => isNewline_of_not_inRegion (hrest d hd)] at hrest'
  refine ⟨q, ?_, hrest'⟩
  rw [psToken, hp]
  exact hq

end

/-- The character that `scan_gap_from` reads. -/
lemma readCp_at (h : At bytes pos (c :: t)) : ∃ b l, bytes[pos]? = some b ∧
    readCp bytes pos b = some (c.toNat, l) ∧ At bytes (pos + l) t := by
  by_cases hc : c.toNat < 0x80
  · obtain ⟨hget, hnext⟩ := h.ascii hc
    refine ⟨_, 1, hget, ?_, hnext⟩
    rw [readCp, if_pos (UInt8.not_le.mp (not_le_ofNat hc)), UInt8.toNat_ofNat_of_lt' (hc.trans (by decide))]
  · obtain ⟨⟨b, hget, hge⟩, l, hdecode, hnext⟩ := decodeCp_at h (Nat.not_lt.mp hc)
    exact ⟨b, l, hget, by rw [readCp, if_neg (UInt8.not_lt.mpr hge), hdecode], hnext⟩

/-- A gap ends where the next match is. -/
lemma scanGapFrom_at (hu : ∀ c ∈ u, inRegion table cjkRegion c = true)
    (hrest : ∀ c ∈ rest.head?, inRegion table cjkRegion c = false) {l : ℕ}
    (h : At bytes (pos + l) (u ++ rest)) :
    ∃ q, scanGapFrom table bytes pos l cjkRegion = some q ∧
      At bytes q (gapRest table u ++ rest) := by
  have hstep : ∀ m p, (∃ v, At bytes p (v ++ rest) ∧ v.length = m ∧
        (∀ c ∈ v, inRegion table cjkRegion c = true) ∧ gapRest table v = gapRest table u) →
      (∃ p', gapStep table cjkRegion bytes p = some (.inl p') ∧ ∃ k < m, ∃ v,
        At bytes p' (v ++ rest) ∧ v.length = k ∧
          (∀ c ∈ v, inRegion table cjkRegion c = true) ∧ gapRest table v = gapRest table u) ∨
      ∃ q, gapStep table cjkRegion bytes p = some (.inr q) ∧
        At bytes q (gapRest table u ++ rest) := by
    rintro m p ⟨v, hv, rfl, hregion, hgap⟩
    cases v with
    | nil =>
        have hstop : At bytes p (gapRest table u ++ rest) := by
          rw [← hgap]
          exact hv
        cases rest with
        | nil =>
            rw [gapStep, At.nil hv]
            exact .inr ⟨p, rfl, hstop⟩
        | cons d rest =>
            obtain ⟨b, l, hget, hread, -⟩ := readCp_at hv
            have hcond : isDeepseekCjk d.toNat ≠ cjkRegion ∨ table.classOf d.toNat ≠ .other := by
              by_contra hboth
              push Not at hboth
              have hnot := hrest d rfl
              rw [inRegion, decide_eq_true (p := isCjk d = cjkRegion) hboth.1,
                DsClassTable.isA_eq hboth.2] at hnot
              cases hnot
            rw [gapStep, hget]
            dsimp only
            rw [hread, Option.bind_eq_bind, Option.bind_some]
            dsimp only
            rw [if_pos hcond]
            exact .inr ⟨p, rfl, hstop⟩
    | cons d v =>
        obtain ⟨b, l, hget, hread, hnext⟩ := readCp_at hv
        obtain ⟨hd, hv'⟩ := List.forall_mem_cons.mp hregion
        have hcjk : isDeepseekCjk d.toNat = cjkRegion :=
          of_decide_eq_true (Bool.and_eq_true_iff.mp hd).1
        rw [gapStep, hget]
        dsimp only
        rw [hread, Option.bind_eq_bind, Option.bind_some]
        dsimp only
        by_cases hother : table.classOf d.toNat = .other
        · have hcond : ¬ (isDeepseekCjk d.toNat ≠ cjkRegion ∨ table.classOf d.toNat ≠ .other) := by
            simp [hcjk, hother]
          rw [if_neg hcond]
          rw [gapRest, DsClassTable.isA_eq hother, decide_eq_true rfl, Bool.true_and] at hgap
          obtain ⟨e, v', q, rfl, hlm, hend, -⟩ | ⟨hend, hnone⟩ := lmEndAt_at hv' hrest hnext
          · rw [lmRest, if_pos hlm] at hgap
            rw [hend]
            refine .inr ⟨p, rfl, ?_⟩
            rw [← hgap]
            exact hv
          · rw [hnone] at hgap
            rw [hend]
            exact .inl ⟨_, rfl, v.length, Nat.lt_succ_self _, v, hnext, rfl, hv', hgap⟩
        · have hcond : isDeepseekCjk d.toNat ≠ cjkRegion ∨ table.classOf d.toNat ≠ .other :=
            .inr hother
          have hother' : table.isA .other d = false := decide_eq_false hother
          rw [gapRest, hother', Bool.false_and] at hgap
          rw [if_pos hcond]
          refine .inr ⟨p, rfl, ?_⟩
          rw [← hgap]
          exact hv
  refine loop_eq_some hstep ⟨u, h, rfl, hu, rfl⟩ ?_
  have hlen := h.length_le
  rw [List.length_append] at hlen
  omega

/-! ### The tokens of a region -/

/-- The scanner ends where the first piece of the region does. -/
def Ends (table : DeepSeekTable) (bytes : List UInt8) (p rest : List Char) (result : Option ℕ) :
    Prop := ∃ q v, result = some q ∧ At bytes q (v ++ rest) ∧ FirstPiece table p v

section

variable (hc : inRegion table cjkRegion c = true) (hu : ∀ c ∈ u, inRegion table cjkRegion c = true)
  (hrest : ∀ c ∈ rest.head?, inRegion table cjkRegion c = false)
include hc

/-- What the regex matches is the first piece. -/
lemma ends_of_first {v : List Char} {result : Option ℕ}
    (h : ∃ q, result = some q ∧ At bytes q (v ++ rest))
    (hfirst : first (split3 table) (c :: u) = some v) : Ends table bytes (c :: u) rest result := by
  obtain ⟨q, hq, hat⟩ := h
  have hgap : ¬ (table.isA .other c = true ∧ lmRest table u = none) := by
    rintro ⟨hother, hnone⟩
    rw [first_of_other (.inl (of_decide_eq_true hother)), hnone] at hfirst
    cases hfirst
  obtain ⟨v', hfirst', hlen⟩ := exists_first (isA_number_of_inRegion hc) hgap
  obtain rfl := Option.some_inj.mp (hfirst.symm.trans hfirst')
  exact ⟨q, v, hq, hat, firstPiece_of_first hfirst hlen⟩

include hu hrest

/-- A word without a prefix. -/
lemma ends_lm (hlm : isLmChar table c = true) (h : At bytes pos (u ++ rest)) :
    Ends table bytes (c :: u) rest (scanLmFrom table bytes pos cjkRegion) :=
  ends_of_first hc (scanLmFrom_at hu hrest h) (first_of_lm hlm)

omit hc in
/-- A word behind a prefix, or what the source does otherwise. -/
lemma lmOr_at (otherwise : Option ℕ) (h : At bytes pos (u ++ rest)) :
    (∃ v, lmRest table u = some v ∧
      ∃ q, lmOr table bytes pos cjkRegion otherwise = some q ∧ At bytes q (v ++ rest)) ∨
    lmRest table u = none ∧ lmOr table bytes pos cjkRegion otherwise = otherwise := by
  obtain ⟨d, u', q, rfl, hlm, hend, hq⟩ | ⟨hend, hnone⟩ := lmEndAt_at hu hrest h
  · refine .inl ⟨u'.dropWhile (isLmChar table), by rw [lmRest, if_pos hlm], ?_⟩
    rw [lmOr, hend]
    exact scanLmFrom_at (List.forall_mem_cons.mp hu).2 hrest hq
  · refine .inr ⟨hnone, ?_⟩
    rw [lmOr, hend]
    rfl

/-- Another character: a prefix, or the front of a gap. -/
lemma ends_other {l : ℕ} (hother : table.isA .other c = true)
    (h : At bytes (pos + l) (u ++ rest)) :
    Ends table bytes (c :: u) rest
      (lmOr table bytes (pos + l) cjkRegion (scanGapFrom table bytes pos l cjkRegion)) := by
  obtain ⟨v, hword, hend⟩ | ⟨hnone, hend⟩ :=
    lmOr_at hu hrest (scanGapFrom table bytes pos l cjkRegion) h
  · refine ends_of_first hc hend ?_
    rw [first_of_other (.inl (of_decide_eq_true hother)), hword]
  · obtain ⟨q, hq, hat⟩ := scanGapFrom_at hu hrest h
    rw [hend]
    exact ⟨q, _, hq, hat,
      firstPiece_of_gap hother hnone fun d hd => isA_number_of_inRegion (hu d hd)⟩

end

section

variable (hc : inRegion table false c = true) (hu : ∀ c ∈ u, inRegion table false c = true)
  (hrest : ∀ c ∈ rest.head?, inRegion table false c = false)
include hc hu hrest

/-- A token of spaces, when no word and no punctuation is behind the first one. -/
lemma ends_spaces (hspace : table.isA .whitespace c = true)
    (hword : isNewline c = true ∨ lmRest table u = none)
    (hpuncts : c ≠ ' ' ∨ punctsRest table u = none) (h : At bytes pos (c :: (u ++ rest))) :
    Ends table bytes (c :: u) rest (wsTokenEnd table bytes pos) := by
  refine ends_of_first hc (wsTokenEnd_at hu hrest h hspace) ?_
  have hword' : (if isNewline c then none else lmRest table u) = none := by
    obtain hn | hnone := hword
    · exact if_pos hn
    · rw [hnone, ite_self]
  have hpuncts' : (if c = ' ' then punctsRest table u else none) = none := by
    obtain hne | hnone := hpuncts
    · exact if_neg hne
    · rw [hnone, ite_self]
  rw [first_of_whitespace (of_decide_eq_true hspace), hword', hpuncts', Option.none_or,
    Option.none_or]

/-- Spaces that may be a prefix. -/
lemma ends_wordOrSpaces {l : ℕ} (hspace : table.isA .whitespace c = true)
    (hn : isNewline c = false) (hne : c ≠ ' ') (h : At bytes pos (c :: (u ++ rest)))
    (hnext : At bytes (pos + l) (u ++ rest)) :
    Ends table bytes (c :: u) rest
      (lmOr table bytes (pos + l) false (wsTokenEnd table bytes pos)) := by
  obtain ⟨v, hword, hend⟩ | ⟨hnone, hend⟩ := lmOr_at hu hrest (wsTokenEnd table bytes pos) hnext
  · refine ends_of_first hc hend ?_
    rw [first_of_whitespace (of_decide_eq_true hspace), hn, if_neg Bool.false_ne_true, hword,
      Option.some_or]
  · rw [hend]
    exact ends_spaces hc hu hrest hspace (.inr hnone) (.inl hne) h

/-- Punctuation without letters of ASCII. -/
lemma ends_puncts (hpunct : table.isA .punctSym c = true)
    (hletters : c.toNat < 0x80 → asciiRest u = none) (h : At bytes pos (u ++ rest)) :
    Ends table bytes (c :: u) rest (psToken table bytes pos) := by
  refine ends_of_first hc (psToken_at hu hrest h) ?_
  have hnone : (if c.toNat < 0x80 then asciiRest u else none) = none := by
    split_ifs with hascii
    · exact hletters hascii
    · rfl
  rw [first_of_punctSym (of_decide_eq_true hpunct), hnone, Option.none_or]

end

/-! ### The tokens behind a space -/

/-- The character behind a space is read by its class. -/
lemma advanceSpace_eq {d : Char} (h : At bytes (pos + 1) (d :: t)) : ∃ p₁, At bytes p₁ t ∧
    advanceSpace table bytes pos = if isCjk d then some (pos + 1)
      else advanceSpaceClass table bytes pos p₁ (table.classOf d.toNat) := by
  by_cases hd : d.toNat < 0x80
  · obtain ⟨hget, hnext⟩ := h.ascii hd
    refine ⟨pos + 2, hnext, ?_⟩
    rw [advanceSpace, hget, isCjk_ascii hd, if_neg Bool.false_ne_true]
    dsimp only
    rw [isLetter_ascii table hd, isDigit_ascii table hd, isAsciiPunctuation_ascii table hd,
      isAsciiWs_ascii table hd, if_pos (UInt8.not_le.mp (not_le_ofNat hd))]
    cases hcls : table.classOf d.toNat <;>
      rw [isLmChar_eq hcls, DsClassTable.isA_eq hcls, DsClassTable.isA_eq hcls,
        DsClassTable.isA_eq hcls] <;> rfl
  · obtain ⟨⟨b, hget, hge⟩, l, hdecode, hnext⟩ := decodeCp_at h (Nat.not_lt.mp hd)
    refine ⟨pos + 1 + l, hnext, ?_⟩
    have hletter : ¬ isLetter b = true := fun hb =>
      absurd (recognizes_isLetter.lt hb) (UInt8.not_lt.mpr hge)
    rw [advanceSpace, hget]
    dsimp only
    rw [if_neg hletter, if_neg (UInt8.not_lt.mpr hge), hdecode, Option.bind_eq_bind,
      Option.bind_some]
    rfl

section

variable (hc : inRegion table false ' ' = true) (hu : ∀ c ∈ u, inRegion table false c = true)
  (hrest : ∀ c ∈ rest.head?, inRegion table false c = false)
include hc

/-- A space that is alone. -/
lemma ends_space (hhead : ∀ d ∈ u.head?, table.isA .whitespace d = false)
    (hword : lmRest table u = none) (hpuncts : punctsRest table u = none)
    (h : At bytes pos (u ++ rest)) : Ends table bytes (' ' :: u) rest (some pos) := by
  have hspace : table.isA .whitespace ' ' = true := by
    rw [← isA_whitespace_marksJoin, isA_eq (classOf_space table.marksJoin)]
    rfl
  refine ends_of_first hc ⟨pos, rfl, h⟩ ?_
  rw [first_of_whitespace (of_decide_eq_true hspace), hword, hpuncts, ite_self, ite_self,
    Option.none_or, Option.none_or, Cl100kFamily.wsRest_space]
  exact fun d hd => (isA_whitespace_marksJoin table d).trans (hhead d hd)

include hu hrest

/-- Behind a space and a character of the region that ends at `p₁`. -/
lemma advanceSpaceClass_at {d : Char} {p₁ : ℕ} (hd : inRegion table false d = true)
    (h : At bytes pos (' ' :: (d :: u ++ rest))) (hp₁ : At bytes p₁ (u ++ rest)) :
    Ends table bytes (' ' :: d :: u) rest
      (advanceSpaceClass table bytes pos p₁ (table.classOf d.toNat)) := by
  have hdu : ∀ c ∈ d :: u, inRegion table false c = true := List.forall_mem_cons.mpr ⟨hd, hu⟩
  have hspace : table.isA .whitespace ' ' = true := by
    rw [← isA_whitespace_marksJoin, isA_eq (classOf_space table.marksJoin)]
    rfl
  have hword : isLmChar table d = false → lmRest table (d :: u) = none := fun hlm => by
    rw [lmRest, hlm, if_neg Bool.false_ne_true]
  have hpuncts : table.isA .punctSym d = false → punctsRest table (d :: u) = none := fun hps => by
    rw [punctsRest, hps, if_neg Bool.false_ne_true]
  have hlone : isLmChar table d = false → table.isA .punctSym d = false →
      table.isA .whitespace d = false → Ends table bytes (' ' :: d :: u) rest (some (pos + 1)) := by
    intro hlm hps hws
    refine ends_space hc (fun e he => ?_) (hword hlm) (hpuncts hps) (h.ascii (by decide)).2
    rwa [← Option.some_inj.mp he]
  cases hcls : table.classOf d.toNat with
  | letter | mark =>
      refine ends_of_first hc (scanLmFrom_at hu hrest hp₁) ?_
      rw [first_of_whitespace (of_decide_eq_true hspace), lmRest, isLmChar_eq hcls]
      rfl
  | number =>
      have hnot := isA_number_of_inRegion hd
      rw [DsClassTable.isA_eq hcls] at hnot
      cases hnot
  | whitespace =>
      exact ends_spaces hc hdu hrest hspace (.inr (hword (isLmChar_eq hcls)))
        (.inr (hpuncts (DsClassTable.isA_eq hcls _))) h
  | punctSym =>
      refine ends_of_first hc (psToken_at hu hrest hp₁) ?_
      rw [first_of_whitespace (of_decide_eq_true hspace), hword (isLmChar_eq hcls), punctsRest,
        DsClassTable.isA_eq hcls]
      rfl
  | other =>
      exact hlone (isLmChar_eq hcls) (DsClassTable.isA_eq hcls _) (DsClassTable.isA_eq hcls _)

lemma advanceSpace_at (h : At bytes pos (' ' :: (u ++ rest))) :
    Ends table bytes (' ' :: u) rest (advanceSpace table bytes pos) := by
  have hnext := (h.ascii (by decide)).2
  cases u with
  | nil =>
      have hlone := ends_space (u := []) hc (fun d hd => absurd hd (Option.not_mem_none d)) rfl rfl
        hnext
      have hone : advanceSpace table bytes pos = some (pos + 1) := by
        cases rest with
        | nil => rw [advanceSpace, At.nil hnext]
        | cons d rest =>
            obtain ⟨p₁, -, heq⟩ := @advanceSpace_eq table _ _ _ _ hnext
            rw [heq]
            obtain hcjk | hnumber := boundary_of_not_inRegion (hrest d rfl)
            · exact if_pos hcjk
            · have hcls : table.classOf d.toNat = .number := of_decide_eq_true hnumber
              rw [hcls]
              exact ite_self _
      rw [hone]
      exact hlone
  | cons d u =>
      obtain ⟨hd, hu⟩ := List.forall_mem_cons.mp hu
      have hcjk : isCjk d = false := of_decide_eq_true (Bool.and_eq_true_iff.mp hd).1
      obtain ⟨p₁, hp₁, heq⟩ := @advanceSpace_eq table _ _ _ _ hnext
      rw [heq, hcjk, if_neg Bool.false_ne_true]
      exact advanceSpaceClass_at hc hu hrest hd h hp₁

end

/-! ### Letters of ASCII behind punctuation -/

lemma isAsciiLetter_lt (h : isAsciiLetter c = true) : c.toNat < 0x80 := by
  simp only [isAsciiLetter, Bool.or_eq_true, Bool.and_eq_true, decide_eq_true_eq] at h
  obtain ⟨-, h⟩ | ⟨-, h⟩ := h
  · exact lt_of_le_of_lt (Char.le_def.mp h) (by decide)
  · exact lt_of_le_of_lt (Char.le_def.mp h) (by decide)

lemma isLetter_isAsciiLetter (hc : c.toNat < 0x80) :
    isLetter (UInt8.ofNat c.toNat) = isAsciiLetter c := by
  have hall : ∀ n < 0x80, isLetter (UInt8.ofNat n) = isAsciiLetter (Char.ofNat n) := by
    decide +kernel
  have hchar := hall c.toNat hc
  rwa [Char.ofNat_toNat] at hchar

/-- Letters of ASCII are of the region. -/
lemma isAsciiLetter_of_not_inRegion (h : inRegion table false c = false) :
    isAsciiLetter c = false := by
  refine Bool.eq_false_iff.mpr fun hletter => ?_
  have hascii := isAsciiLetter_lt hletter
  have hlm : isLmChar table c = true := by
    rw [← isLetter_ascii table hascii, isLetter_isAsciiLetter hascii, hletter]
  obtain hcjk | hnumber := boundary_of_not_inRegion h
  · rw [isCjk_ascii hascii] at hcjk
    cases hcjk
  · rw [isLmChar_eq (of_decide_eq_true hnumber)] at hlm
    cases hlm

/-- The byte behind a character of punctuation. -/
lemma any_isLetter_at (h : At bytes pos t) :
    (bytes[pos]?).any isLetter = t.head?.any isAsciiLetter := by
  cases t with
  | nil =>
      rw [h.nil]
      rfl
  | cons c t =>
      by_cases hc : c.toNat < 0x80
      · rw [(h.ascii hc).1]
        exact isLetter_isAsciiLetter hc
      · obtain ⟨⟨b, hget, hge⟩, -⟩ := decodeCp_at h (Nat.not_lt.mp hc)
        have hletter : isLetter b = false := Bool.eq_false_iff.mpr fun hb =>
          absurd (recognizes_isLetter.lt hb) (UInt8.not_lt.mpr hge)
        have hchar : isAsciiLetter c = false := Bool.eq_false_iff.mpr fun hb =>
          hc (isAsciiLetter_lt hb)
        rw [hget, Option.any_some, hletter, List.head?_cons, Option.any_some, hchar]

/-- A run of letters of ASCII. -/
lemma swarScanLetters_at (h : At bytes pos t) :
    ∃ q, swarScanLetters bytes pos = some q ∧ At bytes q (t.dropWhile isAsciiLetter) := by
  have hrun := h.runEnd (p := isAsciiLetter) (fun c => isLetter_isAsciiLetter)
    fun _ => recognizes_isLetter.lt
  have hpred : (fun c : Char => decide (c.toNat < 0x80) && isAsciiLetter c) = isAsciiLetter := by
    funext c
    rw [Bool.and_eq_right_iff_imp]
    exact fun hc => decide_eq_true (isAsciiLetter_lt hc)
  rw [hpred] at hrun
  exact ⟨_, swarScanLetters_eq h.le, hrun⟩

/-! ### The tokens of the text -/

section

variable (hc : inRegion table false c = true) (hu : ∀ c ∈ u, inRegion table false c = true)
  (hrest : ∀ c ∈ rest.head?, inRegion table false c = false)
include hc hu hrest

lemma advanceAscii_at (hascii : c.toNat < 0x80) (hlm : isLmChar table c = false) (hne : c ≠ ' ')
    (h : At bytes pos (c :: (u ++ rest))) :
    Ends table bytes (c :: u) rest (advanceAscii table bytes pos (UInt8.ofNat c.toNat)) := by
  obtain ⟨hget, hnext⟩ := h.ascii hascii
  have hnewline : (UInt8.ofNat c.toNat = 13 ∨ UInt8.ofNat c.toNat = 10) ↔ isNewline c = true := by
    rw [← Cl100kFamily.isNewline_iff_byte h, hget, Option.some_inj, Option.some_inj]
  have hspaces : isNewline c = true → table.isA .whitespace c = true := fun hn => by
    rw [← isA_whitespace_marksJoin]
    exact Cl100kFamily.isA_of_isNewline table.marksJoin hn
  rw [advanceAscii, isAsciiWs_ascii table hascii, isAsciiPunctuation_ascii table hascii]
  by_cases hn : isNewline c = true
  · rw [if_pos (hnewline.mpr hn)]
    exact ends_spaces hc hu hrest (hspaces hn) (.inl hn) (.inl hne) h
  rw [if_neg (mt hnewline.mp hn)]
  cases hcls : table.classOf c.toNat with
  | letter | mark =>
      rw [isLmChar_eq hcls] at hlm
      cases hlm
  | number =>
      have hnot := isA_number_of_inRegion hc
      rw [DsClassTable.isA_eq hcls] at hnot
      cases hnot
  | whitespace =>
      have hws : table.isA .whitespace c = true := DsClassTable.isA_eq hcls _
      rw [if_pos hws]
      exact ends_wordOrSpaces hc hu hrest (DsClassTable.isA_eq hcls _)
        (Bool.eq_false_iff.mpr hn) hne h hnext
  | punctSym =>
      have hws : ¬ table.isA .whitespace c = true := by
        rw [DsClassTable.isA_eq hcls]
        decide
      have hps : table.isA .punctSym c = true := DsClassTable.isA_eq hcls _
      rw [if_neg hws, if_pos hps, any_isLetter_at hnext]
      have hhead : (u ++ rest).head?.any isAsciiLetter = u.head?.any isAsciiLetter := by
        cases u with
        | nil =>
            cases rest with
            | nil => rfl
            | cons d rest => exact isAsciiLetter_of_not_inRegion (hrest d rfl)
        | cons d u => rfl
      rw [hhead]
      split_ifs with hletter
      · cases u with
        | nil => cases hletter
        | cons d u =>
            obtain ⟨q, hq, hat⟩ := swarScanLetters_at hnext
            have hd : isAsciiLetter d = true := hletter
            rw [dropWhile_append_of_head (q := isAsciiLetter)
              fun e he => isAsciiLetter_of_not_inRegion (hrest e he),
              List.dropWhile_cons_of_pos hd] at hat
            refine ends_of_first hc ⟨q, hq, hat⟩ ?_
            rw [first_of_punctSym hcls, if_pos hascii, asciiRest, if_pos hd, Option.some_or]
      · refine ends_puncts hc hu hrest (DsClassTable.isA_eq hcls _) (fun _ => ?_) hnext
        cases u with
        | nil => rfl
        | cons d u => exact if_neg hletter
  | other =>
      have hws : ¬ table.isA .whitespace c = true := by
        rw [DsClassTable.isA_eq hcls]
        decide
      have hps : ¬ table.isA .punctSym c = true := by
        rw [DsClassTable.isA_eq hcls]
        decide
      rw [if_neg hws, if_neg hps]
      exact ends_other hc hu hrest (DsClassTable.isA_eq hcls _) hnext

lemma advanceNonAscii_at (hhigh : 0x80 ≤ c.toNat) {l : ℕ} (h : At bytes pos (c :: (u ++ rest)))
    (hnext : At bytes (pos + l) (u ++ rest)) : Ends table bytes (c :: u) rest
      (advanceNonAscii table bytes pos l (table.classOf c.toNat)) := by
  cases hcls : table.classOf c.toNat with
  | letter | mark => exact ends_lm hc hu hrest (isLmChar_eq hcls) hnext
  | number =>
      have hnot := isA_number_of_inRegion hc
      rw [DsClassTable.isA_eq hcls] at hnot
      cases hnot
  | whitespace =>
      have hne : ∀ d : Char, d.toNat < 0x80 → c ≠ d := by
        rintro d hd rfl
        exact absurd hd (Nat.not_lt.mpr hhigh)
      have hn : isNewline c = false := Bool.eq_false_iff.mpr fun hn =>
        (Cl100kFamily.isNewline_iff.mp hn).elim (hne '\r' (by decide)) (hne '\n' (by decide))
      exact ends_wordOrSpaces hc hu hrest (DsClassTable.isA_eq hcls _) hn (hne ' ' (by decide)) h
        hnext
  | punctSym =>
      exact ends_puncts hc hu hrest (DsClassTable.isA_eq hcls _)
        (fun hascii => absurd hascii (Nat.not_lt.mpr hhigh)) hnext
  | other => exact ends_other hc hu hrest (DsClassTable.isA_eq hcls _) hnext

lemma advanceMain_at (h : At bytes pos (c :: (u ++ rest))) :
    Ends table bytes (c :: u) rest (advanceMain table bytes pos) := by
  by_cases hascii : c.toNat < 0x80
  · obtain ⟨hget, hnext⟩ := h.ascii hascii
    rw [advanceMain, hget, Option.bind_eq_bind, Option.bind_some, isLetter_ascii table hascii]
    cases hlm : isLmChar table c with
    | true => exact ends_lm hc hu hrest hlm hnext
    | false =>
        have hspace : UInt8.ofNat c.toNat = 32 ↔ c = ' ' := ofNat_eq_iff (d := ' ') hascii (by decide)
        rw [if_neg Bool.false_ne_true]
        by_cases hc' : c = ' '
        · subst hc'
          exact advanceSpace_at hc hu hrest h
        · rw [if_neg (mt hspace.mp hc'), if_pos (UInt8.not_le.mp (not_le_ofNat hascii))]
          exact advanceAscii_at hc hu hrest hascii hlm hc' h
  · obtain ⟨⟨b, hget, hge⟩, l, hdecode, hnext⟩ := decodeCp_at h (Nat.not_lt.mp hascii)
    have hlow : ¬ b < 0x80 := UInt8.not_lt.mpr hge
    have hletter : ¬ isLetter b = true := fun hb => hlow (recognizes_isLetter.lt hb)
    have hspace : ¬ b = 32 := by
      rintro rfl
      exact hlow (by decide)
    rw [advanceMain, hget, Option.bind_eq_bind, Option.bind_some, if_neg hletter, if_neg hspace,
      if_neg hlow, hdecode, Option.bind_eq_bind, Option.bind_some]
    exact advanceNonAscii_at hc hu hrest (Nat.not_lt.mp hascii) h hnext

end

/-- In a CJK run are no newlines and no spaces. -/
lemma advanceCjk_at (hc : inRegion table true c = true)
    (hu : ∀ c ∈ u, inRegion table true c = true)
    (hrest : ∀ c ∈ rest.head?, inRegion table true c = false)
    (h : At bytes pos (c :: (u ++ rest))) :
    Ends table bytes (c :: u) rest (advanceCjk table bytes pos) := by
  have hcjk : ∀ d, inRegion table true d = true → isCjk d = true := fun d hd =>
    of_decide_eq_true (Bool.and_eq_true_iff.mp hd).1
  have hhigh : ∀ d, isCjk d = true → 0x80 ≤ d.toNat := by
    intro d hd
    by_contra hlow
    rw [isCjk_ascii (Nat.not_le.mp hlow)] at hd
    cases hd
  obtain ⟨-, l, hdecode, hnext⟩ := decodeCp_at h (hhigh c (hcjk c hc))
  rw [advanceCjk, hdecode, Option.bind_eq_bind, Option.bind_some]
  dsimp only
  cases hcls : table.classOf c.toNat with
  | letter | mark => exact ends_lm hc hu hrest (isLmChar_eq hcls) hnext
  | number | whitespace =>
      have hnot := table.cjk c.toNat (hcjk c hc)
      rw [hcls] at hnot
      simp at hnot
  | punctSym =>
      refine ends_of_first hc (scanPsFrom_at hu hrest hnext) ?_
      have hnewlines : psRest table u = u.dropWhile (table.isA .punctSym) := by
        refine dropWhile_eq_self fun d hd => Bool.eq_false_iff.mpr fun hn => ?_
        have hd' := hcjk d (hu d ((List.dropWhile_suffix _).subset (List.mem_of_mem_head? hd)))
        have hspace := Cl100kFamily.isA_of_isNewline table.marksJoin hn
        rw [isA_whitespace_marksJoin] at hspace
        exact (table.cjk _ hd').2 (of_decide_eq_true hspace)
      rw [first_of_punctSym hcls, if_neg (Nat.not_lt.mpr (hhigh c (hcjk c hc))), Option.none_or,
        hnewlines]
  | other => exact ends_other hc hu hrest (DsClassTable.isA_eq hcls _) hnext

/-- A token of a region is a token of the text. -/
lemma exists_token {result : Option ℕ} (hp : ∀ c ∈ u, inRegion table cjkRegion c = true)
    (hrest : ∀ c ∈ rest.head?, inRegion table cjkRegion c = false)
    (h : Ends table bytes u rest result) : ∃ q piece t, result = some q ∧ At bytes q t ∧
      piece ≠ [] ∧ u ++ rest = piece ++ t ∧
        referenceTokens table (u ++ rest) = piece :: referenceTokens table t := by
  obtain ⟨q, v, hq, hat, hfirst⟩ := h
  obtain ⟨piece, hne, hpiece, htokens⟩ := referenceTokens_region hp hrest hfirst
  exact ⟨q, piece, v ++ rest, hq, hat, hne, hpiece, htokens⟩

/-- The scanner ends a token where the three splits do. -/
lemma advancePos_at (h : At bytes pos (c :: t)) : ∃ q piece rest,
    advancePos table bytes pos = some q ∧ At bytes q rest ∧ piece ≠ [] ∧ c :: t = piece ++ rest ∧
      referenceTokens table (c :: t) = piece :: referenceTokens table rest := by
  by_cases hnumber : table.isA .number c = true
  · have hnot : isCjk c = false := Bool.eq_false_iff.mpr fun hcjk => by
      rw [not_number_of_isCjk table hcjk] at hnumber
      cases hnumber
    obtain ⟨piece, hne, hpiece, htokens⟩ := referenceTokens_number (t := t) hnumber
    obtain ⟨p, hp, heq⟩ : ∃ p, At bytes p t ∧
        advancePos table bytes pos = scanNumbersMax3 table.marksJoin bytes p 1 := by
      by_cases hascii : c.toNat < 0x80
      · obtain ⟨hget, hnext⟩ := h.ascii hascii
        refine ⟨pos + 1, hnext, ?_⟩
        rw [advancePos, hget, Option.bind_eq_bind, Option.bind_some,
          if_pos (UInt8.not_le.mp (not_le_ofNat hascii)), isDigit_ascii table hascii,
          if_pos hnumber]
      · obtain ⟨⟨b, hget, hge⟩, l, hdecode, hnext⟩ := decodeCp_at h (Nat.not_lt.mp hascii)
        refine ⟨pos + l, hnext, ?_⟩
        have hcjk : ¬ isDeepseekCjk c.toNat = true := Bool.eq_false_iff.mp hnot
        rw [advancePos, hget, Option.bind_eq_bind, Option.bind_some,
          if_neg (UInt8.not_lt.mpr hge), hdecode, Option.bind_eq_bind, Option.bind_some]
        dsimp only
        rw [if_neg hcjk, if_pos (of_decide_eq_true hnumber)]
    obtain ⟨q, hq, hat⟩ := scanNumbers_at table.marksJoin 2 hp
    exact ⟨q, piece, _, heq.trans hq, hat, hne, hpiece, htokens⟩
  · have hregion : inRegion table (isCjk c) c = true := by
      rw [inRegion, decide_eq_true rfl, Bool.eq_false_iff.mpr hnumber]
      rfl
    -- the region of the character, with all that follows in it
    have hsplit : t = t.takeWhile (inRegion table (isCjk c)) ++
        t.dropWhile (inRegion table (isCjk c)) := List.takeWhile_append_dropWhile.symm
    have hu : ∀ d ∈ t.takeWhile (inRegion table (isCjk c)),
        inRegion table (isCjk c) d = true := fun d hd => List.mem_takeWhile_imp hd
    have hrest : ∀ d ∈ (t.dropWhile (inRegion table (isCjk c))).head?,
        inRegion table (isCjk c) d = false := fun d hd => of_mem_head?_dropWhile hd
    generalize t.takeWhile (inRegion table (isCjk c)) = u at hsplit hu
    generalize t.dropWhile (inRegion table (isCjk c)) = rest at hsplit hrest
    subst hsplit
    have hcu : ∀ d ∈ c :: u, inRegion table (isCjk c) d = true :=
      List.forall_mem_cons.mpr ⟨hregion, hu⟩
    refine exists_token hcu hrest ?_
    by_cases hascii : c.toNat < 0x80
    · have hcjk := isCjk_ascii hascii
      rw [hcjk] at hregion hu hrest
      have hdigit : ¬ isDigit (UInt8.ofNat c.toNat) = true := by
        rw [isDigit_ascii table hascii]
        exact hnumber
      rw [advancePos, (h.ascii hascii).1, Option.bind_eq_bind, Option.bind_some,
        if_pos (UInt8.not_le.mp (not_le_ofNat hascii)), if_neg hdigit]
      exact advanceMain_at hregion hu hrest h
    · obtain ⟨⟨b, hget, hge⟩, l, hdecode, hnext⟩ := decodeCp_at h (Nat.not_lt.mp hascii)
      rw [advancePos, hget, Option.bind_eq_bind, Option.bind_some,
        if_neg (UInt8.not_lt.mpr hge), hdecode, Option.bind_eq_bind, Option.bind_some]
      dsimp only
      cases hcjk : isCjk c with
      | true =>
          have hcond : isDeepseekCjk c.toNat = true := hcjk
          rw [hcjk] at hregion hu hrest
          rw [if_pos hcond]
          exact advanceCjk_at hregion hu hrest h
      | false =>
          have hcond : ¬ isDeepseekCjk c.toNat = true := Bool.eq_false_iff.mp hcjk
          have hcls : ¬ table.classOf c.toNat = .number := fun hcls =>
            hnumber (DsClassTable.isA_eq hcls _)
          rw [hcjk] at hregion hu hrest
          rw [if_neg hcond, if_neg hcls]
          exact advanceMain_at hregion hu hrest h

/-- A text is cut where the three splits cut it. -/
lemma exists_referenceTokens (table : DeepSeekTable) (text : List Char) :
    ∃ pieces, pieces = referenceTokens table text ∧
      pretokens (advancePos table) (textBytes text) (textBytes text).length 0 =
        some (pieces.map textBytes) := by
  refine exists_pretokens (fun t pieces => pieces = referenceTokens table t)
    (referenceTokens_nil table).symm (fun bytes pos c t h => ?_) text
  obtain ⟨q, piece, rest, hq, hat, hne, hpiece, htokens⟩ := advancePos_at h
  refine ⟨q, piece, rest, hq, hat, hne, hpiece, fun pieces hpieces => ?_⟩
  rw [hpieces, htokens]

/-- The walk of the scanner gives the pieces of the three splits. -/
theorem pretokens_referenceTokens (table : DeepSeekTable) (text : List Char) :
    pretokens (advancePos table) (textBytes text) (textBytes text).length 0 =
      some ((referenceTokens table text).map textBytes) := by
  obtain ⟨pieces, rfl, hpieces⟩ := exists_referenceTokens table text
  exact hpieces

end DeepSeekV3

end Hypertok
