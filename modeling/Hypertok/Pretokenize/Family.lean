import Hypertok.Pretokenize.Segment

/-!
The scalar scanners of `cl100k.rs`, `olmo3.rs`, `qwen2.rs` and `qwen3_5.rs` are one scanner. Its
parameters are the rule of numbers, the rule of spaces, and the classification.

* `wsTokenEnd_at`: where a token of spaces ends.
* `scans_of`: the scanner implements each regex whose alternatives match as it expects.
-/

namespace Hypertok

namespace Cl100kFamily

open Machine Regex

/-- `u8::to_ascii_lowercase`. -/
def toAsciiLowercase (b : UInt8) : UInt8 := if 65 ≤ b ∧ b ≤ 90 then b + 32 else b

/-- The variables of the loop of `ws_token_end`. -/
structure WsState where
  p : ℕ
  lastNlEnd : ℕ
  lastCharStart : ℕ

variable (table : ClassTable)

/-- One turn of the loop of `ws_token_end`. -/
def wsStep (bytes : List UInt8) (st : WsState) : Option (WsState ⊕ WsState) :=
  if bytes[st.p]? = some 13 ∨ bytes[st.p]? = some 10 then
    some (.inl ⟨st.p + 1, st.p + 1, st.p⟩)
  else do
    return match ← classEndAt table .whitespace isAsciiWs bytes st.p with
      | some p => .inl ⟨p, st.lastNlEnd, st.p⟩
      | none => .inr st

/-- `ws_token_end` of `cl100k.rs` tests the end of the text first (`endFirst`), those of the
others test the newlines first. -/
def wsTokenEnd (endFirst : Bool) (bytes : List UInt8) (start : ℕ) : Option ℕ := do
  let st ← loop (wsStep table bytes) (bytes.length + 1) ⟨start, 0, start⟩
  return if endFirst ∧ bytes.length ≤ st.p then st.p
    else if st.lastNlEnd ≠ 0 then st.lastNlEnd
    else if bytes.length ≤ st.p then st.p
    else if start < st.lastCharStart then st.lastCharStart
    else st.p

/-- `[^\s\p{L}\p{N}]+[\r\n]*`, behind the first character. -/
def punctuationFrom (bytes : List UInt8) (pos : ℕ) : Option ℕ := do
  scanNewlines bytes (← scanOtherFrom table bytes pos)

/-- A run of letters, if there is a letter; otherwise what follows in the source. -/
def lettersOr (bytes : List UInt8) (pos : ℕ) (otherwise : Option ℕ) : Option ℕ := do
  match ← letterEndAt table bytes pos with
  | some p => scanLettersFrom table bytes p
  | none => otherwise

variable (number : List UInt8 → ℕ → Option ℕ) (spaces : List UInt8 → ℕ → Option ℕ)

/-- `advance_pos`, behind a space and a character that ends at `p`. -/
def advanceSpaceClass (bytes : List UInt8) (pos p : ℕ) : CharClass → Option ℕ
  | .letter => scanLettersFrom table bytes p
  | .whitespace => spaces bytes pos
  | .number => some (pos + 1)
  | .other => punctuationFrom table bytes p

/-- `advance_pos`, behind a space. -/
def advanceSpace (bytes : List UInt8) (pos : ℕ) : Option ℕ :=
  match bytes[pos + 1]? with
  | none => some (pos + 1)
  | some b₁ =>
      if isLetter b₁ then scanLettersFrom table bytes (pos + 2)
      else if b₁ < 0x80 then
        if isDigit b₁ then some (pos + 1)
        else if isAsciiWs b₁ then spaces bytes pos
        else punctuationFrom table bytes (pos + 2)
      else do
        let (cp, l) ← decodeCp bytes (pos + 1)
        advanceSpaceClass table spaces bytes pos (pos + 1 + l) (table.classOf cp)

/-- `advance_pos`, at a character that is not ASCII and ends at `p₀`. -/
def advanceNonAscii (bytes : List UInt8) (pos p₀ : ℕ) : CharClass → Option ℕ
  | .letter => scanLettersFrom table bytes p₀
  | .number => number bytes p₀
  | .whitespace => lettersOr table bytes p₀ (spaces bytes pos)
  | .other => lettersOr table bytes p₀ (punctuationFrom table bytes p₀)

/-- `advance_pos`, at an apostrophe: `U+017F` is folded to `s`. -/
def advanceQuote (bytes : List UInt8) (pos : ℕ) : Option ℕ :=
  match contractionEnd toAsciiLowercase bytes pos with
  | some p => some p
  | none =>
      if bytes[pos + 1]? = some 0xC5 ∧ bytes[pos + 2]? = some 0xBF then some (pos + 3)
      else lettersOr table bytes (pos + 1) (punctuationFrom table bytes (pos + 1))

/-- `advance_pos`. -/
def advancePos (bytes : List UInt8) (pos : ℕ) : Option ℕ := do
  let b₀ ← bytes[pos]?
  if isLetter b₀ then scanLettersFrom table bytes (pos + 1)
  else if b₀ = 32 then advanceSpace table spaces bytes pos
  else if 0x80 ≤ b₀ then do
    let (cp, l) ← decodeCp bytes pos
    advanceNonAscii table number spaces bytes pos (pos + l) (table.classOf cp)
  else if isDigit b₀ then number bytes (pos + 1)
  else if b₀ = 39 then advanceQuote table bytes pos
  else if b₀ = 13 ∨ b₀ = 10 then spaces bytes pos
  else if isAsciiWs b₀ then lettersOr table bytes (pos + 1) (spaces bytes pos)
  else lettersOr table bytes (pos + 1) (punctuationFrom table bytes (pos + 1))

/-! ### Spaces -/

/-- What is left behind the last newline of the spaces at the front. -/
def afterNewline (table : ClassTable) : List Char → Option (List Char)
  | [] => none
  | c :: t =>
      if table.isA .whitespace c then
        (afterNewline table t).or (if isNewline c then some t else none)
      else none

/-- What a token of spaces leaves. -/
def wsRest (table : ClassTable) (endFirst : Bool) (c : Char) (t : List Char) : List Char :=
  if endFirst ∧ t.dropWhile (table.isA .whitespace) = [] then []
  else (afterNewline table (c :: t)).getD (spacesRest table t)

variable {table} {bytes : List UInt8} {pos start : ℕ} {c : Char} {t : List Char}

lemma isNewline_iff : isNewline c = true ↔ c = '\r' ∨ c = '\n' := by
  rw [isNewline, Bool.or_eq_true, decide_eq_true_eq, decide_eq_true_eq]

lemma isA_of_isNewline (table : ClassTable) (h : isNewline c = true) :
    table.isA .whitespace c = true := by
  rcases isNewline_iff.mp h with rfl | rfl
  · rw [ClassTable.isA_ascii (by decide)]
    decide
  · rw [ClassTable.isA_ascii (by decide)]
    decide

lemma isNewline_iff_byte (h : At bytes pos (c :: t)) :
    (bytes[pos]? = some 13 ∨ bytes[pos]? = some 10) ↔ isNewline c = true := by
  have hr : bytes[pos]? = some 13 ↔ (c :: t).head? = some '\r' :=
    h.byte_iff (d := '\r') (by decide)
  have hn : bytes[pos]? = some 10 ↔ (c :: t).head? = some '\n' :=
    h.byte_iff (d := '\n') (by decide)
  rw [hr, hn, List.head?_cons, Option.some_inj, Option.some_inj, isNewline_iff]

/-- The variables of `ws_token_end` when the text `u` is left, of the text `v` from the start. -/
structure Reading (table : ClassTable) (bytes : List UInt8) (start : ℕ) (v u : List Char)
    (st : WsState) : Prop where
  at_p : At bytes st.p u
  dropWhile_eq : u.dropWhile (table.isA .whitespace) = v.dropWhile (table.isA .whitespace)
  newline : (st.lastNlEnd = 0 ∧ afterNewline table v = afterNewline table u) ∨
    ∃ r, At bytes st.lastNlEnd r ∧ st.lastNlEnd ≠ 0 ∧
      afterNewline table v = (afterNewline table u).or (some r)
  last : (u = v ∧ st.lastCharStart = start) ∨
    ∃ before d, v = before ++ d :: u ∧ (∀ b ∈ before ++ [d], table.isA .whitespace b = true) ∧
      At bytes st.lastCharStart (d :: u)

namespace Reading

variable {v u : List Char} {st : WsState}

/-- A space is read. -/
lemma space (h : Reading table bytes start v (c :: u) st)
    (hc : table.isA .whitespace c = true) {p : ℕ} (hp : At bytes p u) {nl : ℕ}
    (hnl : (isNewline c = true ∧ nl = p ∧ nl ≠ 0) ∨ isNewline c = false ∧ nl = st.lastNlEnd) :
    Reading table bytes start v u ⟨p, nl, st.p⟩ where
  at_p := hp
  dropWhile_eq := by rw [← h.dropWhile_eq, List.dropWhile_cons_of_pos hc]
  newline := by
    have hnext : afterNewline table (c :: u) =
        (afterNewline table u).or (if isNewline c then some u else none) := by
      rw [afterNewline, if_pos hc]
    obtain ⟨hyes, rfl, hne⟩ | ⟨hno, rfl⟩ := hnl
    · rw [hyes, if_pos rfl] at hnext
      refine .inr ⟨u, hp, hne, ?_⟩
      obtain ⟨-, hv⟩ | ⟨r, -, -, hv⟩ := h.newline
      · rw [hv, hnext]
      · rw [hv, hnext, Option.or_assoc, Option.some_or]
    · rw [hno, if_neg Bool.false_ne_true, Option.or_none] at hnext
      have hnewline := h.newline
      rwa [hnext] at hnewline
  last := by
    obtain ⟨rfl, -⟩ | ⟨before, d, rfl, hbefore, -⟩ := h.last
    · exact .inr ⟨[], c, rfl, List.forall_mem_singleton.mpr hc, h.at_p⟩
    · refine .inr ⟨before ++ [d], c, by simp, ?_, h.at_p⟩
      exact List.forall_mem_append.mpr ⟨hbefore, List.forall_mem_singleton.mpr hc⟩

/-- One turn of the loop of `ws_token_end`. -/
lemma step (h : Reading table bytes start v u st) :
    (∃ c u' st', u = c :: u' ∧ wsStep table bytes st = some (.inl st') ∧
      Reading table bytes start v u' st') ∨
    wsStep table bytes st = some (.inr st) ∧ ∀ c ∈ u.head?, table.isA .whitespace c = false := by
  have hend := classEndAt_at table recognizes_isAsciiWs h.at_p
  by_cases hbyte : bytes[st.p]? = some 13 ∨ bytes[st.p]? = some 10
  · rw [wsStep, if_pos hbyte]
    cases u with
    | nil =>
        have hnone := h.at_p.nil
        rw [hnone] at hbyte
        simp at hbyte
    | cons c u =>
        have hnewline := (isNewline_iff_byte h.at_p).mp hbyte
        have hascii : c.toNat < 0x80 := by
          rcases isNewline_iff.mp hnewline with rfl | rfl <;> decide
        have hnext := (h.at_p.ascii hascii).2
        exact .inl ⟨c, u, _, rfl, rfl,
          h.space (isA_of_isNewline table hnewline) hnext (.inl ⟨hnewline, rfl, Nat.succ_ne_zero _⟩)⟩
  · rw [wsStep, if_neg hbyte]
    obtain ⟨c, u', q, rfl, hA, hsome, hnext⟩ | ⟨hnone, hhead⟩ := hend
    · rw [hsome]
      have hnot := Bool.eq_false_iff.mpr (mt (isNewline_iff_byte h.at_p).mpr hbyte)
      exact .inl ⟨c, u', _, rfl, rfl, h.space hA hnext (.inr ⟨hnot, rfl⟩)⟩
    · rw [hnone]
      exact .inr ⟨rfl, hhead⟩

end Reading

lemma afterNewline_eq_none (h : ∀ c ∈ t.head?, table.isA .whitespace c = false) :
    afterNewline table t = none := by
  cases t with
  | nil => rfl
  | cons c t => rw [afterNewline, h c rfl, if_neg Bool.false_ne_true]

lemma takeWhile_eq_nil (h : ∀ c ∈ t.head?, table.isA .whitespace c = false) :
    t.takeWhile (table.isA .whitespace) = [] := by
  cases t with
  | nil => rfl
  | cons c t => exact List.takeWhile_cons_of_neg (by rw [h c rfl]; exact Bool.false_ne_true)

/-- A single space leaves all that follows. -/
lemma spacesRest_eq_self (h : ∀ c ∈ t.head?, table.isA .whitespace c = false) :
    spacesRest table t = t := by
  rw [spacesRest, dropWhile_eq_self h, takeWhile_eq_nil h]
  exact ite_eq_right_iff.mpr fun ht => ht.symm

/-- The last of the spaces at the front, if there is more than the one before. -/
lemma spacesRest_append {before rest : List Char} {d : Char}
    (hbefore : ∀ b ∈ before ++ [d], table.isA .whitespace b = true) (hrest : rest ≠ [])
    (hhead : ∀ b ∈ rest.head?, table.isA .whitespace b = false) :
    spacesRest table (before ++ d :: rest) = d :: rest := by
  have hsplit : before ++ d :: rest = (before ++ [d]) ++ rest := by simp
  rw [spacesRest, hsplit, List.dropWhile_append_of_pos hbefore, dropWhile_eq_self hhead,
    if_neg hrest, List.takeWhile_append_of_pos hbefore, takeWhile_eq_nil hhead, List.append_nil,
    List.getLast?_append, List.getLast?_singleton]
  rfl

/-- The loop of `ws_token_end` reads the spaces. -/
lemma wsLoop_at (h : At bytes start (c :: t)) (hc : table.isA .whitespace c = true) :
    ∃ st, loop (wsStep table bytes) (bytes.length + 1) ⟨start, 0, start⟩ = some st ∧
      Reading table bytes start (c :: t) (t.dropWhile (table.isA .whitespace)) st := by
  have hstart : Reading table bytes start (c :: t) (c :: t) ⟨start, 0, start⟩ :=
    ⟨h, rfl, .inl ⟨rfl, rfl⟩, .inl ⟨rfl, rfl⟩⟩
  have hstep : ∀ m st, (∃ u, Reading table bytes start (c :: t) u st ∧ u.length = m) →
      (∃ st', wsStep table bytes st = some (.inl st') ∧ ∃ k < m, ∃ u,
        Reading table bytes start (c :: t) u st' ∧ u.length = k) ∨
      ∃ st', wsStep table bytes st = some (.inr st') ∧
        Reading table bytes start (c :: t) (t.dropWhile (table.isA .whitespace)) st' := by
    rintro m st ⟨u, hu, rfl⟩
    obtain ⟨d, u', st', rfl, hst', hu'⟩ | ⟨hst, hhead⟩ := hu.step
    · exact .inl ⟨st', hst', u'.length, Nat.lt_succ_self _, u', hu', rfl⟩
    · refine .inr ⟨st, hst, ?_⟩
      have hdrop := hu.dropWhile_eq
      rw [dropWhile_eq_self hhead, List.dropWhile_cons_of_pos hc] at hdrop
      rwa [← hdrop]
  exact loop_eq_some hstep ⟨_, hstart, rfl⟩ (Nat.lt_succ_of_le h.length_le)

/-- The text ends where the bytes do. -/
lemma length_le_iff_of_at (h : At bytes pos t) : bytes.length ≤ pos ↔ t = [] := by
  cases t with
  | nil => exact iff_of_true (Nat.not_lt.mp h.not_lt) rfl
  | cons c t => exact iff_of_false (Nat.not_le.mpr h.lt) (List.cons_ne_nil c t)

/-- A token of spaces ends where the alternatives of the regex do. -/
lemma wsTokenEnd_at (endFirst : Bool) (h : At bytes start (c :: t))
    (hc : table.isA .whitespace c = true) :
    ∃ q, wsTokenEnd table endFirst bytes start = some q ∧
      At bytes q (wsRest table endFirst c t) := by
  obtain ⟨st, hst, hread⟩ := wsLoop_at h hc
  have hhead : ∀ d ∈ (t.dropWhile (table.isA .whitespace)).head?,
      table.isA .whitespace d = false := fun d => of_mem_head?_dropWhile
  have hlen := length_le_iff_of_at hread.at_p
  rw [wsTokenEnd, hst, Option.bind_eq_bind, Option.bind_some, wsRest]
  simp only [hlen]
  by_cases hend : endFirst = true ∧ t.dropWhile (table.isA .whitespace) = []
  · rw [if_pos hend, if_pos hend]
    exact ⟨st.p, rfl, hend.2 ▸ hread.at_p⟩
  · rw [if_neg hend, if_neg hend]
    obtain ⟨hzero, hnone⟩ | ⟨r, hr, hne, hsome⟩ := hread.newline
    · rw [afterNewline_eq_none hhead] at hnone
      rw [if_neg (not_not_intro hzero), hnone, Option.getD_none]
      by_cases hrest : t.dropWhile (table.isA .whitespace) = []
      · rw [if_pos hrest, spacesRest, if_pos hrest]
        exact ⟨st.p, rfl, hrest ▸ hread.at_p⟩
      · rw [if_neg hrest]
        obtain ⟨hself, -⟩ | ⟨before, d, hv, hbefore, hlast⟩ := hread.last
        · have hshort := congrArg List.length hself
          have := List.length_dropWhile_le (table.isA .whitespace) t
          rw [List.length_cons] at hshort
          omega
        · generalize t.dropWhile (table.isA .whitespace) = rest at *
          cases before with
          | nil =>
              obtain ⟨rfl, rfl⟩ := List.cons.inj hv
              have hstart' := hlast.pos_eq h
              rw [hstart', if_neg (Nat.lt_irrefl _)]
              refine ⟨st.p, rfl, ?_⟩
              rw [spacesRest_eq_self hhead]
              exact hread.at_p
          | cons b before =>
              rw [List.cons_append] at hv
              obtain ⟨rfl, rfl⟩ := List.cons.inj hv
              have hsplit : At bytes start ((c :: before) ++ d :: rest) := h
              have hpos := hlast.pos_eq hsplit.append
              have hfront := length_utf8EncodeChar_pos c
              rw [textBytes_cons, List.length_append] at hpos
              rw [spacesRest_append (List.forall_mem_cons.mp hbefore).2 hrest hhead,
                if_pos (by omega)]
              exact ⟨_, rfl, hlast⟩
    · rw [afterNewline_eq_none hhead, Option.none_or] at hsome
      rw [if_pos hne, hsome, Option.getD_some]
      exact ⟨_, rfl, hr⟩

/-! ### Folding -/

/-- Case folding of ASCII, and of `U+017F`. -/
def foldCase (c : Char) : Char := if c = '\u017f' then 's' else c.toLower

lemma folds_toLower : Folds toAsciiLowercase Char.toLower where
  ascii c hc := by
    have hall : ∀ n < 0x80, toAsciiLowercase (UInt8.ofNat n) =
        UInt8.ofNat (Char.ofNat n).toLower.toNat ∧ (Char.ofNat n).toLower.toNat < 0x80 := by
      decide +kernel
    have hfold := hall c.toNat hc
    rwa [Char.ofNat_toNat] at hfold
  high b hb := by
    have hle := UInt8.le_iff_toNat_le.mp hb
    rw [toAsciiLowercase, if_neg]
    · exact hb
    · rintro ⟨-, h⟩
      have := UInt8.le_iff_toNat_le.mp h
      change 128 ≤ b.toNat at hle
      change b.toNat ≤ 90 at this
      omega
  nonAscii c hc := by
    have hlower : c.toLower = c := by
      refine dif_neg ?_
      rintro ⟨-, h⟩
      have hle : c.toNat ≤ 90 := UInt32.le_iff_toNat_le.mp h
      omega
    rwa [hlower]

/-- The folds differ in `U+017F`. -/
lemma contractionRest_foldCase (t : List Char) :
    contractionRest foldCase t =
      if t.head? = some '\u017f' then some t.tail else contractionRest Char.toLower t := by
  have hother : ∀ d : Char, d ≠ '\u017f' → foldCase d = d.toLower := fun d hd => if_neg hd
  cases t with
  | nil => rfl
  | cons d t =>
      by_cases hd : d = '\u017f'
      · subst hd
        have hs : foldCase '\u017f' = 's' := if_pos rfl
        rw [List.head?_cons, if_pos rfl, contractionRest, hs, if_pos (Or.inl rfl)]
        rfl
      · have hhead : ∀ a : Char, a ≠ 's' → a ≠ '\u017f' →
            (t.head?.map foldCase = some a ↔ t.head?.map Char.toLower = some a) := by
          intro a ha ha'
          cases t with
          | nil => rfl
          | cons e t =>
              rw [List.head?_cons, Option.map_some, Option.map_some, Option.some_inj,
                Option.some_inj]
              by_cases he : e = '\u017f'
              · subst he
                have hs : foldCase '\u017f' = 's' := if_pos rfl
                have hl : Char.toLower '\u017f' = '\u017f' := by decide
                rw [hs, hl]
                exact iff_of_false ha.symm ha'.symm
              · rw [hother e he]
        rw [List.head?_cons, if_neg (fun h => hd (Option.some_inj.mp h)), contractionRest,
          contractionRest, hother d hd]
        simp only [hhead 'l' (by decide) (by decide), hhead 'e' (by decide) (by decide)]

/-! ### Words and punctuation -/

/-- What a run of letters leaves. -/
def lettersRest (table : ClassTable) : List Char → Option (List Char)
  | [] => none
  | d :: t => if table.isA .letter d then some (t.dropWhile (table.isA .letter)) else none

/-- What a word leaves, with its prefix: any character but a newline, a letter or a number. -/
def wordRest (table : ClassTable) (c : Char) (t : List Char) : Option (List Char) :=
  if table.isA .letter c then some (t.dropWhile (table.isA .letter))
  else if isNewline c || table.isA .number c then none
  else lettersRest table t

/-- What a run of punctuation leaves behind its first character, with the newlines. -/
def otherRest (table : ClassTable) (t : List Char) : List Char :=
  (t.dropWhile (table.isA .other)).dropWhile isNewline

/-- What a run of punctuation leaves. -/
def othersRest (table : ClassTable) : List Char → Option (List Char)
  | [] => none
  | d :: t => if table.isA .other d then some (otherRest table t) else none

/-- What punctuation leaves, with its space. -/
def punctuationRest (table : ClassTable) (c : Char) (t : List Char) : Option (List Char) :=
  if table.isA .other c then some (otherRest table t)
  else if c = ' ' then othersRest table t
  else none

lemma punctuationFrom_at (table : ClassTable) (h : At bytes pos t) :
    ∃ q, punctuationFrom table bytes pos = some q ∧ At bytes q (otherRest table t) := by
  obtain ⟨p, hp, hother⟩ := scanOtherFrom_at table h
  rw [punctuationFrom, hp, Option.bind_eq_bind, Option.bind_some]
  exact scanNewlines_at hother

lemma length_otherRest_le (table : ClassTable) (t : List Char) :
    (otherRest table t).length ≤ t.length :=
  (List.length_dropWhile_le _ _).trans (List.length_dropWhile_le _ _)

/-- A letter behind the character makes a word of both. -/
lemma lettersOr_at (table : ClassTable) (h : At bytes pos t) (otherwise : Option ℕ) :
    (∃ d t' q, t = d :: t' ∧ table.isA .letter d = true ∧
      lettersOr table bytes pos otherwise = some q ∧
      At bytes q (t'.dropWhile (table.isA .letter))) ∨
    lettersOr table bytes pos otherwise = otherwise ∧
      ∀ d ∈ t.head?, table.isA .letter d = false := by
  rw [lettersOr, letterEndAt]
  obtain ⟨d, t', p, rfl, hA, hsome, hnext⟩ | ⟨hnone, hhead⟩ :=
    classEndAt_at table recognizes_isLetter h
  · obtain ⟨q, hq, hrest⟩ := scanLettersFrom_at table hnext
    rw [hsome]
    exact .inl ⟨d, t', q, rfl, hA, hq, hrest⟩
  · rw [hnone]
    exact .inr ⟨rfl, hhead⟩

/-- What a scheme of the family has: its alternatives, and what they match. `numberRest` is what a
number leaves behind its first character, `endFirst` is the rule of spaces. -/
structure Scheme (table : ClassTable) (number : List UInt8 → ℕ → Option ℕ) (endFirst : Bool) where
  contraction : Regex Char
  word : Regex Char
  numbers : Regex Char
  punctuation : Regex Char
  spaces : List (Regex Char)
  numberRest : List Char → List Char
  first_contraction : ∀ c t, first contraction (c :: t) =
    if c = '\'' then contractionRest foldCase t else none
  first_word : ∀ c t, first word (c :: t) = wordRest table c t
  first_numbers : ∀ c t, first numbers (c :: t) =
    if table.isA .number c then some (numberRest t) else none
  first_punctuation : ∀ c t, first punctuation (c :: t) = punctuationRest table c t
  first_spaces : ∀ c t, table.isA .whitespace c = true →
    first (anyOf spaces) (c :: t) = some (wsRest table endFirst c t)
  number_at : ∀ {bytes : List UInt8} {pos : ℕ} {t : List Char}, At bytes pos t →
    ∃ q, number bytes pos = some q ∧ At bytes q (numberRest t)
  length_numberRest_le : ∀ t, (numberRest t).length ≤ t.length

namespace Scheme

variable {number : List UInt8 → ℕ → Option ℕ} {endFirst : Bool} {rest : List Char}
  (scheme : Scheme table number endFirst)

/-- The regex of the scheme. -/
def regex : Regex Char :=
  anyOf (scheme.contraction :: scheme.word :: scheme.numbers :: scheme.punctuation :: scheme.spaces)

lemma first_regex : first scheme.regex (c :: t) =
    (first scheme.contraction (c :: t)).or ((wordRest table c t).or
      ((if table.isA .number c then some (scheme.numberRest t) else none).or
        ((punctuationRest table c t).or (first (anyOf scheme.spaces) (c :: t))))) := by
  rw [regex, first_anyOf_cons, first_anyOf_cons, first_anyOf_cons, first_anyOf_cons,
    scheme.first_word, scheme.first_numbers, scheme.first_punctuation]

lemma first_contraction_of_ne (hc : c ≠ '\'') : first scheme.contraction (c :: t) = none := by
  rw [scheme.first_contraction, if_neg hc]

variable {scheme} (hcontraction : first scheme.contraction (c :: t) = none)
include hcontraction

lemma first_of_word (hword : wordRest table c t = some rest) :
    first scheme.regex (c :: t) = some rest := by
  rw [first_regex, hcontraction, hword, Option.none_or, Option.some_or]

lemma first_of_number (hword : wordRest table c t = none) (hc : table.isA .number c = true) :
    first scheme.regex (c :: t) = some (scheme.numberRest t) := by
  rw [first_regex, hcontraction, hword, hc, Option.none_or, Option.none_or, if_pos rfl,
    Option.some_or]

lemma first_of_punctuation (hword : wordRest table c t = none) (hc : table.isA .number c = false)
    (hpunctuation : punctuationRest table c t = some rest) :
    first scheme.regex (c :: t) = some rest := by
  rw [first_regex, hcontraction, hword, hc, hpunctuation, Option.none_or, Option.none_or,
    if_neg Bool.false_ne_true, Option.none_or, Option.some_or]

lemma first_of_spaces (hword : wordRest table c t = none)
    (hpunctuation : punctuationRest table c t = none) (hc : table.isA .whitespace c = true) :
    first scheme.regex (c :: t) = some (wsRest table endFirst c t) := by
  have hnumber : table.isA .number c = false := by
    rw [ClassTable.isA, of_decide_eq_true hc]
    decide
  rw [first_regex, hcontraction, hword, hnumber, hpunctuation, scheme.first_spaces c t hc,
    Option.none_or, Option.none_or, if_neg Bool.false_ne_true, Option.none_or, Option.none_or]

end Scheme

/-! ### The lengths -/

lemma length_wordRest_le {rest : List Char} (h : wordRest table c t = some rest) :
    rest.length ≤ t.length := by
  rw [wordRest] at h
  split_ifs at h
  · cases h
    exact List.length_dropWhile_le _ _
  · cases t with
    | nil => cases h
    | cons d t =>
        obtain ⟨-, h⟩ := Option.ite_none_right_eq_some.mp h
        cases h
        exact (List.length_dropWhile_le _ _).trans (Nat.le_succ _)

lemma length_afterNewline_lt {rest : List Char} (h : afterNewline table t = some rest) :
    rest.length < t.length := by
  induction t with
  | nil => cases h
  | cons c t ih =>
      obtain ⟨-, h⟩ := Option.ite_none_right_eq_some.mp h
      cases hlast : afterNewline table t with
      | some r =>
          rw [hlast] at h
          cases h
          exact (ih hlast).trans (Nat.lt_succ_self _)
      | none =>
          rw [hlast, Option.none_or] at h
          obtain ⟨-, h⟩ := Option.ite_none_right_eq_some.mp h
          cases h
          exact Nat.lt_succ_self _

lemma length_wsRest_le (table : ClassTable) (endFirst : Bool) (c : Char) (t : List Char) :
    (wsRest table endFirst c t).length ≤ t.length := by
  rw [wsRest]
  split_ifs
  · exact Nat.zero_le _
  · cases hlast : afterNewline table (c :: t) with
    | some r => exact Nat.le_of_lt_succ (length_afterNewline_lt hlast)
    | none => exact length_spacesRest_le table t

/-! ### The scanner -/

section

variable {number : List UInt8 → ℕ → Option ℕ} {endFirst : Bool}
  (scheme : Scheme table number endFirst)

/-- A token that ends where the leftmost-first match does. -/
def Ends (scheme : Scheme table number endFirst) (bytes : List UInt8) (c : Char) (t : List Char)
    (result : Option ℕ) : Prop :=
  ∃ q rest, result = some q ∧ At bytes q rest ∧ first scheme.regex (c :: t) = some rest ∧
    rest.length ≤ t.length

variable {scheme} {q : ℕ} {rest : List Char}
  (hcontraction : first scheme.contraction (c :: t) = none)
include hcontraction

lemma ends_word (hword : wordRest table c t = some rest) (hq : At bytes q rest) :
    Ends scheme bytes c t (some q) :=
  ⟨q, rest, rfl, hq, Scheme.first_of_word hcontraction hword, length_wordRest_le hword⟩

lemma ends_punctuation (hword : wordRest table c t = none) (hc : table.isA .other c = true)
    {pos : ℕ} (h : At bytes pos t) : Ends scheme bytes c t (punctuationFrom table bytes pos) := by
  obtain ⟨q, hq, hrest⟩ := punctuationFrom_at table h
  have hnumber : table.isA .number c = false := by
    rw [ClassTable.isA, of_decide_eq_true hc]
    decide
  refine ⟨q, _, hq, hrest, Scheme.first_of_punctuation hcontraction hword hnumber ?_,
    length_otherRest_le table t⟩
  rw [punctuationRest, if_pos hc]

lemma ends_spaces (h : At bytes pos (c :: t)) (hword : wordRest table c t = none)
    (hpunctuation : punctuationRest table c t = none) (hc : table.isA .whitespace c = true) :
    Ends scheme bytes c t (wsTokenEnd table endFirst bytes pos) := by
  obtain ⟨q, hq, hrest⟩ := wsTokenEnd_at endFirst h hc
  exact ⟨q, _, hq, hrest, Scheme.first_of_spaces hcontraction hword hpunctuation hc,
    length_wsRest_le table endFirst c t⟩

lemma ends_number (hword : wordRest table c t = none) (hc : table.isA .number c = true)
    {pos : ℕ} (h : At bytes pos t) : Ends scheme bytes c t (number bytes pos) := by
  obtain ⟨q, hq, hrest⟩ := scheme.number_at h
  exact ⟨q, _, hq, hrest, Scheme.first_of_number hcontraction hword hc,
    scheme.length_numberRest_le t⟩

/-- A character that can be the prefix of a word. -/
lemma ends_lettersOr (hletter : table.isA .letter c = false) (hnewline : isNewline c = false)
    (hnumber : table.isA .number c = false) {pos : ℕ} (h : At bytes pos t) {otherwise : Option ℕ}
    (hotherwise : wordRest table c t = none → Ends scheme bytes c t otherwise) :
    Ends scheme bytes c t (lettersOr table bytes pos otherwise) := by
  have hword : wordRest table c t = lettersRest table t := by
    rw [wordRest, hletter, hnewline, hnumber]
    rfl
  obtain ⟨d, t', q, rfl, hA, hq, hrest⟩ | ⟨heq, hhead⟩ := lettersOr_at table h otherwise
  · rw [hq]
    refine ends_word hcontraction ?_ hrest
    rw [hword]
    exact if_pos hA
  · rw [heq]
    refine hotherwise ?_
    rw [hword]
    cases t with
    | nil => rfl
    | cons d t => exact if_neg (by rw [hhead d rfl]; exact Bool.false_ne_true)

end

section

variable {number : List UInt8 → ℕ → Option ℕ} {endFirst : Bool}

lemma wordRest_space (table : ClassTable) (t : List Char) :
    wordRest table ' ' t = lettersRest table t := by
  rw [wordRest, isA_eq (classOf_space table), isA_eq (classOf_space table)]
  rfl

lemma punctuationRest_space (table : ClassTable) (t : List Char) :
    punctuationRest table ' ' t = othersRest table t := by
  rw [punctuationRest, isA_eq (classOf_space table)]
  rfl

lemma wsRest_space (table : ClassTable) (endFirst : Bool)
    (h : ∀ d ∈ t.head?, table.isA .whitespace d = false) : wsRest table endFirst ' ' t = t := by
  have hnone : afterNewline table (' ' :: t) = none := by
    rw [afterNewline, afterNewline_eq_none h, isA_eq (classOf_space table)]
    rfl
  rw [wsRest, dropWhile_eq_self h, hnone, Option.getD_none, spacesRest_eq_self h]
  split_ifs with hend
  · exact hend.2.symm
  · rfl

/-- A space that is alone. -/
lemma ends_space (scheme : Scheme table number endFirst) (h : At bytes pos t)
    (hletter : lettersRest table t = none) (hother : othersRest table t = none)
    (hhead : ∀ d ∈ t.head?, table.isA .whitespace d = false) :
    Ends scheme bytes ' ' t (some pos) := by
  have hmatch : first scheme.regex (' ' :: t) = some (wsRest table endFirst ' ' t) :=
    Scheme.first_of_spaces (scheme.first_contraction_of_ne (by decide))
      ((wordRest_space table t).trans hletter) ((punctuationRest_space table t).trans hother)
      (isA_eq (classOf_space table) .whitespace)
  rw [wsRest_space table endFirst hhead] at hmatch
  exact ⟨pos, t, rfl, h, hmatch, le_rfl⟩

/-- Behind a space and a character that ends at `p`. -/
lemma advanceSpaceClass_at (scheme : Scheme table number endFirst) {d : Char} {p : ℕ}
    (h : At bytes pos (' ' :: d :: t)) (hp : At bytes p t) :
    Ends scheme bytes ' ' (d :: t) (advanceSpaceClass table (wsTokenEnd table endFirst) bytes pos p
      (table.classOf d.toNat)) := by
  have hcontraction : first scheme.contraction (' ' :: d :: t) = none :=
    scheme.first_contraction_of_ne (by decide)
  have hspace := isA_eq (classOf_space table) .whitespace
  have hword : wordRest table ' ' (d :: t) =
      if table.isA .letter d then some (t.dropWhile (table.isA .letter)) else none :=
    wordRest_space table (d :: t)
  have hpunctuation : punctuationRest table ' ' (d :: t) =
      if table.isA .other d then some (otherRest table t) else none :=
    punctuationRest_space table (d :: t)
  cases hcls : table.classOf d.toNat with
  | letter =>
      rw [isA_eq hcls] at hword
      obtain ⟨q, hq, hrest⟩ := scanLettersFrom_at table hp
      rw [advanceSpaceClass, hq]
      exact ends_word hcontraction hword hrest
  | number =>
      have hhead : ∀ d' ∈ (d :: t).head?, table.isA .whitespace d' = false := by
        intro d' hd'
        cases hd'
        exact isA_eq hcls .whitespace
      rw [isA_eq hcls] at hword hpunctuation
      exact ends_space scheme h.tail ((wordRest_space table _).symm.trans hword)
        ((punctuationRest_space table _).symm.trans hpunctuation) hhead
  | whitespace =>
      rw [isA_eq hcls] at hword hpunctuation
      exact ends_spaces hcontraction h hword hpunctuation hspace
  | other =>
      rw [isA_eq hcls] at hword hpunctuation
      obtain ⟨q, hq, hrest⟩ := punctuationFrom_at table hp
      rw [advanceSpaceClass, hq]
      refine ⟨q, _, rfl, hrest, Scheme.first_of_punctuation hcontraction hword
        (isA_eq (classOf_space table) .number) hpunctuation, ?_⟩
      exact (length_otherRest_le table t).trans (Nat.le_succ _)

/-- Behind a space. -/
lemma advanceSpace_at (scheme : Scheme table number endFirst) (h : At bytes pos (' ' :: t)) :
    Ends scheme bytes ' ' t (advanceSpace table (wsTokenEnd table endFirst) bytes pos) := by
  have hnext : At bytes (pos + 1) t := h.tail
  cases t with
  | nil =>
      rw [advanceSpace, hnext.nil]
      exact ends_space scheme hnext rfl rfl fun d hd => absurd hd (Option.not_mem_none d)
  | cons d t =>
      by_cases hd : d.toNat < 0x80
      · obtain ⟨hget, hbehind⟩ := hnext.ascii hd
        have hclass := advanceSpaceClass_at scheme h hbehind
        have hletter := recognizes_isLetter.isA_eq table hd
        have hdigit := recognizes_isDigit.isA_eq table hd
        have hws := recognizes_isAsciiWs.isA_eq table hd
        rw [advanceSpace, hget]
        dsimp only
        rw [hletter, hdigit, hws, if_pos (UInt8.not_le.mp (not_le_ofNat hd))]
        cases hcls : table.classOf d.toNat <;> rw [hcls] at hclass <;>
          rwa [isA_eq hcls, isA_eq hcls, isA_eq hcls]
      · obtain ⟨⟨b, hget, hge⟩, l, hdecode, hbehind⟩ := decodeCp_at hnext (Nat.not_lt.mp hd)
        have hletter : isLetter b = false := Bool.eq_false_iff.mpr fun hb =>
          UInt8.not_lt.mpr hge (recognizes_isLetter.lt hb)
        rw [advanceSpace, hget]
        dsimp only
        rw [hletter, if_neg Bool.false_ne_true, if_neg (UInt8.not_lt.mpr hge), hdecode,
          Option.bind_eq_bind, Option.bind_some]
        exact advanceSpaceClass_at scheme h hbehind

/-- At a character that is not ASCII. -/
lemma advanceNonAscii_at (scheme : Scheme table number endFirst) {p : ℕ}
    (h : At bytes pos (c :: t)) (hp : At bytes p t) (hc : 0x80 ≤ c.toNat) :
    Ends scheme bytes c t (advanceNonAscii table number (wsTokenEnd table endFirst) bytes pos p
      (table.classOf c.toNat)) := by
  have hne : ∀ a : Char, a.toNat < 0x80 → c ≠ a := by
    rintro a ha rfl
    exact absurd ha (Nat.not_lt.mpr hc)
  have hcontraction : first scheme.contraction (c :: t) = none :=
    scheme.first_contraction_of_ne (hne _ (by decide))
  have hnewline : isNewline c = false := Bool.eq_false_iff.mpr fun hn =>
    (isNewline_iff.mp hn).elim (hne _ (by decide)) (hne _ (by decide))
  cases hcls : table.classOf c.toNat with
  | letter =>
      obtain ⟨q, hq, hrest⟩ := scanLettersFrom_at table hp
      rw [advanceNonAscii, hq]
      exact ends_word hcontraction (if_pos (isA_eq hcls .letter)) hrest
  | number =>
      have hword : wordRest table c t = none := by
        rw [wordRest, isA_eq hcls, isA_eq hcls, Bool.or_comm]
        rfl
      exact ends_number hcontraction hword (isA_eq hcls .number) hp
  | whitespace =>
      refine ends_lettersOr hcontraction (isA_eq hcls .letter) hnewline (isA_eq hcls .number) hp
        fun hword => ends_spaces hcontraction h hword ?_ (isA_eq hcls .whitespace)
      rw [punctuationRest, isA_eq hcls, if_neg (by decide), if_neg (hne _ (by decide))]
  | other =>
      exact ends_lettersOr hcontraction (isA_eq hcls .letter) hnewline (isA_eq hcls .number) hp
        fun hword => ends_punctuation hcontraction hword (isA_eq hcls .other) hp

/-- The bytes of `U+017F`. -/
lemma longS_iff (h : At bytes pos t) :
    (bytes[pos]? = some 0xC5 ∧ bytes[pos + 1]? = some 0xBF) ↔ t.head? = some '\u017f' := by
  have hget := h.getElem?
  constructor
  · rintro ⟨h₀, h₁⟩
    cases t with
    | nil =>
        rw [h.nil] at h₀
        cases h₀
    | cons c t =>
        have h₀' := hget 0
        have h₁' := hget 1
        rw [textBytes_cons] at h₀' h₁'
        rw [Nat.add_zero, h₀] at h₀'
        rw [h₁] at h₁'
        by_cases hc : c.toNat < 0x80
        · rw [(h.ascii hc).1, Option.some_inj] at h₀
          exact absurd (h₀ ▸ not_le_ofNat hc : ¬ (0x80 : UInt8) ≤ 0xC5) (by decide)
        · obtain ⟨b₀, b₁, hbytes, -, -, hcode⟩ | ⟨b₀, b₁, b₂, hbytes, hlo, -⟩ |
            ⟨b₀, b₁, b₂, b₃, hbytes, hlo, -⟩ := utf8EncodeChar_nonAscii (Nat.not_lt.mp hc)
          · rw [hbytes] at h₀' h₁'
            obtain rfl : 0xC5 = b₀ := Option.some_inj.mp h₀'
            obtain rfl : 0xBF = b₁ := Option.some_inj.mp h₁'
            have hchar : c = '\u017f' := Char.toNat_inj.mp hcode.symm
            rw [hchar]
            rfl
          · rw [hbytes] at h₀'
            obtain rfl : 0xC5 = b₀ := Option.some_inj.mp h₀'
            exact absurd hlo (by decide)
          · rw [hbytes] at h₀'
            obtain rfl : 0xC5 = b₀ := Option.some_inj.mp h₀'
            exact absurd hlo (by decide)
  · intro hhead
    obtain ⟨t', rfl⟩ := List.head?_eq_some_iff.mp hhead
    exact ⟨hget 0, hget 1⟩

/-- At an apostrophe. -/
lemma advanceQuote_at (scheme : Scheme table number endFirst) (h : At bytes pos ('\'' :: t)) :
    Ends scheme bytes '\'' t (advanceQuote table bytes pos) := by
  have hnext : At bytes (pos + 1) t := h.tail
  have hfold := contractionRest_foldCase t
  have hrule : first scheme.contraction ('\'' :: t) = contractionRest foldCase t :=
    (scheme.first_contraction '\'' t).trans (if_pos rfl)
  have hfirst : ∀ {rest : List Char}, contractionRest foldCase t = some rest →
      first scheme.regex ('\'' :: t) = some rest := by
    intro rest hrest
    rw [Scheme.first_regex, hrule, hrest, Option.some_or]
  rw [advanceQuote]
  obtain ⟨q, rest, hend, hsome, hrest, hshort⟩ | ⟨hend, hnone⟩ :=
    contractionEnd_at folds_toLower hnext
  · rw [hend]
    have hhead : t.head? ≠ some '\u017f' := by
      intro hhead
      obtain ⟨t', rfl⟩ := List.head?_eq_some_iff.mp hhead
      have hlong : contractionRest Char.toLower ('\u017f' :: t') = none := rfl
      exact absurd (hsome.symm.trans hlong) (Option.some_ne_none _)
    rw [if_neg hhead, hsome] at hfold
    exact ⟨q, rest, rfl, hrest, hfirst hfold, hshort.le⟩
  · rw [hend]
    dsimp only
    by_cases hlong : bytes[pos + 1]? = some 0xC5 ∧ bytes[pos + 2]? = some 0xBF
    · have hhead := (longS_iff hnext).mp hlong
      rw [if_pos hhead] at hfold
      obtain ⟨t', rfl⟩ := List.head?_eq_some_iff.mp hhead
      rw [if_pos hlong]
      exact ⟨pos + 3, t', rfl, hnext.tail, hfirst hfold, Nat.le_succ _⟩
    · rw [if_neg (mt (longS_iff hnext).mpr hlong), hnone] at hfold
      have hA := isA_eq (classOf_quote table)
      rw [if_neg hlong]
      exact ends_lettersOr (hrule.trans hfold) (hA .letter) (by decide) (hA .number) hnext
        fun hword => ends_punctuation (hrule.trans hfold) hword (hA .other) hnext

/-- A token ends where the leftmost-first match does. -/
theorem scans (scheme : Scheme table number endFirst) :
    Scans scheme.regex (advancePos table number (wsTokenEnd table endFirst)) := by
  intro bytes pos c t h
  change Ends scheme bytes c t _
  by_cases hc : c.toNat < 0x80
  · obtain ⟨hget, hnext⟩ := h.ascii hc
    have hletter := recognizes_isLetter.isA_eq table hc
    have hdigit := recognizes_isDigit.isA_eq table hc
    have hws := recognizes_isAsciiWs.isA_eq table hc
    have h32 : UInt8.ofNat c.toNat = 32 ↔ c = ' ' := ofNat_eq_iff (d := ' ') hc (by decide)
    have h39 : UInt8.ofNat c.toNat = 39 ↔ c = '\'' := ofNat_eq_iff (d := '\'') hc (by decide)
    have hnl : (UInt8.ofNat c.toNat = 13 ∨ UInt8.ofNat c.toNat = 10) ↔ isNewline c = true := by
      rw [isNewline_iff]
      exact or_congr (ofNat_eq_iff (d := '\r') hc (by decide))
        (ofNat_eq_iff (d := '\n') hc (by decide))
    have hspace : table.classOf c.toNat ≠ .whitespace → c ≠ ' ' := by
      rintro hne rfl
      exact hne (classOf_space table)
    have hquote : table.classOf c.toNat ≠ .other → c ≠ '\'' := by
      rintro hne rfl
      exact hne (classOf_quote table)
    have hnewline : table.classOf c.toNat ≠ .whitespace → isNewline c = false := by
      intro hne
      refine Bool.eq_false_iff.mpr fun hn => hne ?_
      exact of_decide_eq_true (isA_of_isNewline table hn)
    rw [advancePos, hget, Option.bind_eq_bind, Option.bind_some, hletter, hdigit, hws]
    cases hcls : table.classOf c.toNat with
    | letter =>
        have hA := isA_eq hcls
        have hcontraction : first scheme.contraction (c :: t) = none :=
          scheme.first_contraction_of_ne (hquote (by rw [hcls]; decide))
        obtain ⟨q, hq, hrest⟩ := scanLettersFrom_at table hnext
        rw [hA, if_pos (by decide), hq]
        exact ends_word hcontraction (if_pos (hA .letter)) hrest
    | number =>
        have hA := isA_eq hcls
        have hcontraction : first scheme.contraction (c :: t) = none :=
          scheme.first_contraction_of_ne (hquote (by rw [hcls]; decide))
        have hword : wordRest table c t = none := by
          rw [wordRest, hA, hA, Bool.or_comm]
          rfl
        rw [hA, if_neg (by decide), if_neg (mt h32.mp (hspace (by rw [hcls]; decide))),
          if_neg (not_le_ofNat hc), hA, if_pos (by decide)]
        exact ends_number hcontraction hword (hA .number) hnext
    | whitespace =>
        have hA := isA_eq hcls
        have hne := hquote (by rw [hcls]; decide)
        have hcontraction : first scheme.contraction (c :: t) = none :=
          scheme.first_contraction_of_ne hne
        rw [hA, if_neg (by decide)]
        by_cases hsp : c = ' '
        · subst hsp
          exact advanceSpace_at scheme h
        · have hpunctuation : punctuationRest table c t = none := by
            rw [punctuationRest, hA, if_neg (by decide), if_neg hsp]
          rw [if_neg (mt h32.mp hsp), if_neg (not_le_ofNat hc), hA, if_neg (by decide),
            if_neg (mt h39.mp hne), hA, if_pos (by decide : decide (_ = _) = true)]
          by_cases hn : isNewline c = true
          · rw [if_pos (hnl.mpr hn)]
            refine ends_spaces hcontraction h ?_ hpunctuation (hA .whitespace)
            rw [wordRest, hA, hn]
            rfl
          · rw [if_neg (mt hnl.mp hn)]
            exact ends_lettersOr hcontraction (hA .letter) (Bool.eq_false_iff.mpr hn) (hA .number)
              hnext fun hword => ends_spaces hcontraction h hword hpunctuation (hA .whitespace)
    | other =>
        have hA := isA_eq hcls
        have hn := hnewline (by rw [hcls]; decide)
        rw [hA, if_neg (by decide), if_neg (mt h32.mp (hspace (by rw [hcls]; decide))),
          if_neg (not_le_ofNat hc), hA, if_neg (by decide)]
        by_cases hq : c = '\''
        · subst hq
          rw [if_pos (h39.mpr rfl)]
          exact advanceQuote_at scheme h
        · have hcontraction : first scheme.contraction (c :: t) = none :=
            scheme.first_contraction_of_ne hq
          rw [if_neg (mt h39.mp hq), if_neg (mt hnl.mp (Bool.eq_false_iff.mp hn)), hA,
            if_neg (by decide)]
          exact ends_lettersOr hcontraction (hA .letter) hn (hA .number) hnext
            fun hword => ends_punctuation hcontraction hword (hA .other) hnext
  · obtain ⟨⟨b, hget, hge⟩, l, hdecode, hnext⟩ := decodeCp_at h (Nat.not_lt.mp hc)
    have hletter : isLetter b = false := Bool.eq_false_iff.mpr fun hb =>
      UInt8.not_lt.mpr hge (recognizes_isLetter.lt hb)
    have h32 : b ≠ 32 := by
      rintro rfl
      exact absurd hge (by decide)
    rw [advancePos, hget, Option.bind_eq_bind, Option.bind_some, hletter,
      if_neg Bool.false_ne_true, if_neg h32, if_pos hge, hdecode, Option.bind_eq_bind,
      Option.bind_some]
    exact advanceNonAscii_at scheme h hnext (Nat.not_lt.mp hc)

end

end Cl100kFamily

end Hypertok
