import Hypertok.Convert.Json
import Hypertok.Load.Ranked

/-!
PRIORITY, from the merge list.

A merge is admitted if its product is not special and its parts are reachable when it
is listed: initial symbols, or products of merges admitted before. The priority of a
token is the rank of the first admitted merge of the token.

* `deriveBytePriority`, `derivePriority`: the two loops. They count duplicate products
  among the admitted and among the listed merges.
* `Listed`: what both loops keep; `deriveBytePriority_ok` and `derivePriority_ok` say
  what their results mean for the merge list.
-/

namespace Hypertok

open PairMerge Machine

/-! ### The code -/

/-- The state of the loop over the merges. -/
structure PriorityState where
  priorities : List ℕ
  reachable : Finset TokenId
  previous : Option TokenId
  inversions : ℕ
  productIds : Finset TokenId
  duplicateProducts : ℕ
  sourcePairs : Finset (TokenId × TokenId × TokenId)

/-- The ids of a merge. -/
def idTriple (r : Rule ℕ TokenId) : TokenId × TokenId × TokenId := (r.left, r.right, r.product)

/-- The merges that are not passed over. -/
def admits (specials reachable : Finset TokenId) (r : Rule ℕ TokenId) : Bool :=
  r.product ∉ specials && r.left ∈ reachable && r.right ∈ reachable

namespace PriorityState

/-- The state before the loop. -/
def start (vocabSize : ℕ) (reachable : Finset TokenId) : PriorityState where
  priorities := List.replicate vocabSize 0
  reachable := reachable
  previous := none
  inversions := 0
  productIds := ∅
  duplicateProducts := 0
  sourcePairs := ∅

/-- A merge is listed once; a product below the one before it is an inversion. -/
def list (st : PriorityState) (r : Rule ℕ TokenId) : Except JsonConversionError PriorityState :=
  if idTriple r ∈ st.sourcePairs then .error (.invalidMerge (r.rank - 1))
  else
    .ok { st with
      sourcePairs := insert (idTriple r) st.sourcePairs
      inversions := if ∃ value ∈ st.previous, r.product < value then st.inversions + 1
        else st.inversions
      previous := some r.product }

/-- `duplicate_products.checked_add(1)`. -/
def duplicate (st : PriorityState) : Except JsonConversionError PriorityState :=
  if st.duplicateProducts = u32Max then .error .sizeOverflow
  else .ok { st with duplicateProducts := st.duplicateProducts + 1 }

/-- The product of a listed merge. -/
def product (st : PriorityState) (r : Rule ℕ TokenId) : Except JsonConversionError PriorityState :=
  if r.product ∈ st.productIds then st.duplicate
  else .ok { st with productIds := insert r.product st.productIds }

/-- `slot`. -/
def slot (st : PriorityState) (r : Rule ℕ TokenId) : ℕ := priorityOf st.priorities r.product

/-- The product of an admitted merge becomes reachable. -/
def reach (st : PriorityState) (r : Rule ℕ TokenId) : PriorityState :=
  { st with reachable := insert r.product st.reachable }

/-- The slot of a product takes the rank of its merge. -/
def fill (st : PriorityState) (r : Rule ℕ TokenId) : PriorityState :=
  { st with priorities := st.priorities.set r.product r.rank }

end PriorityState

/-- One turn of the loop of `derive_byte_priority`. -/
def bytePriorityStep (specials : Finset TokenId) (st : PriorityState) (r : Rule ℕ TokenId) :
    Except JsonConversionError PriorityState := do
  let st ← st.list r
  if !admits specials st.reachable r then .ok st
  else if u32Max < r.rank then .error .sizeOverflow
  else if st.slot r ≠ 0 then return (← st.duplicate).reach r
  else .ok ((st.fill r).reach r)

/-- One turn of the loop of `derive_priority`. -/
def priorityStep (specials : Finset TokenId) (st : PriorityState) (r : Rule ℕ TokenId) :
    Except JsonConversionError PriorityState := do
  let st ← st.list r
  let st ← st.product r
  if !admits specials st.reachable r then .ok st
  else if u32Max < r.rank then .error .sizeOverflow
  else if st.slot r = 0 ∨ r.rank < st.slot r then .ok ((st.fill r).reach r)
  else .ok (st.reach r)

/-- The cuts of a token of the vocabulary into two tokens. -/
def tokenPairs (vocab : VocabMap) (token : Text) (id : TokenId) :
    List (TokenId × TokenId × TokenId) :=
  (List.range' 1 (token.length - 1)).filterMap fun offset => do
    let leftId ← vocab.lookup (token.take offset)
    let rightId ← vocab.lookup (token.drop offset)
    some (leftId, rightId, id)

/-- `expected_pairs`. -/
def expectedPairs (vocab : VocabMap) : Finset (TokenId × TokenId × TokenId) :=
  (vocab.toList.flatMap fun x => tokenPairs vocab x.1 x.2).toFinset

/-- The result of both functions. -/
structure Priorities where
  priorities : List ℕ
  inversions : ℕ
  nonProducts : ℕ
  exhaustiveSplits : Bool

/-- Duplicate products need all cuts to be listed. -/
def coverSplits (vocab : VocabMap) (st : PriorityState) (nonProducts : ℕ) :
    Except JsonConversionError Priorities :=
  if st.duplicateProducts = 0 then .ok ⟨st.priorities, st.inversions, nonProducts, false⟩
  else if st.sourcePairs = expectedPairs vocab then
    .ok ⟨st.priorities, st.inversions, nonProducts, true⟩
  else .error (.unsupported "duplicate-product merge coverage")

/-- `derive_byte_priority`. -/
def deriveBytePriority (merges : List MergeLine) (vocab : VocabMap) (specials base : Finset TokenId)
    (vocabSize : ℕ) : Except JsonConversionError Priorities := do
  let st ← merges.zipIdx.foldlM (fun st x => do bytePriorityStep specials st (← resolveMerge vocab x))
    (.start vocabSize base)
  let nonProducts := (List.range vocabSize).countP fun id =>
    id ∉ specials && id ∉ base && id ∉ st.reachable
  if u32Max < nonProducts then .error .sizeOverflow
  else coverSplits vocab st nonProducts

/-- `derive_priority`. -/
def derivePriority (merges : List MergeLine) (vocab : VocabMap)
    (specials byteFallback base : Finset TokenId) (vocabSize : ℕ) (allowNonProducts : Bool) :
    Except JsonConversionError Priorities := do
  let st ← merges.zipIdx.foldlM (fun st x => do priorityStep specials st (← resolveMerge vocab x))
    (.start vocabSize (base ∪ byteFallback))
  let nonProducts := (List.range vocabSize).filter fun id =>
    id ∉ specials && id ∉ byteFallback && id ∉ base && priorityOf st.priorities id == 0
  match nonProducts.head? with
  | some id =>
      if allowNonProducts then coverSplits vocab st nonProducts.length
      else .error (.missingMergeProduct id)
  | none => coverSplits vocab st 0

/-! ### Admitted merges -/

/-- The merges that the loops admit. -/
def admitted (specials : Finset TokenId) : Finset TokenId → List (Rule ℕ TokenId) →
    List (Rule ℕ TokenId)
  | _, [] => []
  | reachable, r :: rules =>
      if admits specials reachable r then
        r :: admitted specials (insert r.product reachable) rules
      else admitted specials reachable rules

/-- The products of merges. -/
def products (rules : List (Rule ℕ TokenId)) : Finset TokenId := (rules.map Rule.product).toFinset

/-- The rank of the first merge of a token, zero if there is none. -/
def firstRank (rules : List (Rule ℕ TokenId)) (id : TokenId) : ℕ :=
  ((rules.find? fun r => r.product = id).map Rule.rank).getD 0

variable {specials reachable : Finset TokenId} {rules : List (Rule ℕ TokenId)}
  {r : Rule ℕ TokenId} {id : TokenId}

lemma mem_products : id ∈ products rules ↔ ∃ r ∈ rules, r.product = id := by simp [products]

lemma admitted_sublist (specials reachable : Finset TokenId) (rules : List (Rule ℕ TokenId)) :
    (admitted specials reachable rules).Sublist rules := by
  induction rules generalizing reachable with
  | nil => exact .slnil
  | cons r rules ih =>
      rw [admitted]
      split_ifs with hr
      · exact (ih _).cons_cons r
      · exact (ih _).cons r

lemma admitted_concat (specials reachable : Finset TokenId) (rules : List (Rule ℕ TokenId))
    (r : Rule ℕ TokenId) :
    admitted specials reachable (rules ++ [r]) = admitted specials reachable rules ++
      if admits specials (reachable ∪ products (admitted specials reachable rules)) r then [r]
      else [] := by
  induction rules generalizing reachable with
  | nil => simp [admitted, products]
  | cons x rules ih =>
      rw [List.cons_append, admitted, admitted]
      by_cases hx : admits specials reachable x
      · rw [if_pos hx, if_pos hx, ih, List.cons_append]
        have hreach : ∀ l, insert x.product reachable ∪ products l =
            reachable ∪ products (x :: l) := fun l => by
          simp [products, Finset.insert_union, Finset.union_insert]
        rw [hreach]
      · rw [if_neg hx, if_neg hx, ih]

/-- An admitted merge has an ordinary product, and parts that are initial or products. -/
lemma admits_of_mem (h : r ∈ admitted specials reachable rules) :
    r.product ∉ specials ∧
      (r.left ∈ reachable ∨ r.left ∈ products (admitted specials reachable rules)) ∧
      (r.right ∈ reachable ∨ r.right ∈ products (admitted specials reachable rules)) := by
  induction rules generalizing reachable with
  | nil => simp [admitted] at h
  | cons x rules ih =>
      rw [admitted] at h ⊢
      split_ifs with hx
      · rw [if_pos hx] at h
        simp only [admits, Bool.and_eq_true, decide_eq_true_eq] at hx
        rcases List.mem_cons.mp h with rfl | h
        · exact ⟨hx.1.1, .inl hx.1.2, .inl hx.2⟩
        · have := ih h
          simp only [products, List.map_cons, List.toFinset_cons, Finset.mem_insert] at this ⊢
          tauto
      · rw [if_neg hx] at h
        exact ih h

/-- The parts and the products of admitted merges share what the initial symbols have and
merges keep. -/
lemma forall_of_admitted {Q : TokenId → Prop} (hstart : ∀ a ∈ reachable, Q a)
    (hstep : ∀ r ∈ rules, Q r.left → Q r.right → Q r.product)
    (h : r ∈ admitted specials reachable rules) : Q r.left ∧ Q r.right := by
  induction rules generalizing reachable with
  | nil => simp [admitted] at h
  | cons x rules ih =>
      simp only [List.mem_cons, forall_eq_or_imp] at hstep
      rw [admitted] at h
      split_ifs at h with hx
      · simp only [admits, Bool.and_eq_true, decide_eq_true_eq] at hx
        have hparts : Q x.left ∧ Q x.right := ⟨hstart _ hx.1.2, hstart _ hx.2⟩
        rcases List.mem_cons.mp h with rfl | h
        · exact hparts
        · refine ih (fun a ha => ?_) hstep.2 h
          rcases Finset.mem_insert.mp ha with rfl | ha
          · exact hstep.1 hparts.1 hparts.2
          · exact hstart a ha
      · exact ih hstart hstep.2 h

/-- If products are admitted once, the first merge of a product is its merge. -/
lemma firstRank_of_nodup {adm : List (Rule ℕ TokenId)} (hnodup : (adm.map Rule.product).Nodup)
    (h : r ∈ adm) : firstRank adm r.product = r.rank := by
  rw [firstRank]
  cases hfind : adm.find? fun x => x.product = r.product with
  | none => simpa using List.find?_eq_none.mp hfind r h
  | some x =>
      have hx : x.product = r.product := by simpa using List.find?_some hfind
      rw [List.inj_on_of_nodup_map hnodup (List.mem_of_find?_eq_some hfind) h hx]
      rfl

/-! ### What the loops keep -/

/-- The listed merges are distinct, and their inversions are counted. -/
structure Seen (rules : List (Rule ℕ TokenId)) (st : PriorityState) : Prop where
  previous : st.previous = rules.getLast?.map Rule.product
  inversions : st.inversions = 0 → (rules.map Rule.product).IsChain (· ≤ ·)
  sourcePairs : ∀ t, t ∈ st.sourcePairs ↔ t ∈ rules.map idTriple
  nodup : (rules.map idTriple).Nodup

/-- The admitted merges have their ranks in the slots. -/
structure Filled (n : ℕ) (reachable : Finset TokenId) (adm : List (Rule ℕ TokenId))
    (st : PriorityState) : Prop where
  length : st.priorities.length = n
  priority : ∀ id, priorityOf st.priorities id = firstRank adm id
  reachable : st.reachable = reachable ∪ products adm
  rank_le : ∀ r ∈ adm, r.rank ≤ u32Max

variable {n : ℕ} {adm : List (Rule ℕ TokenId)} {st st' : PriorityState}

lemma seen_start : Seen [] (.start n reachable) :=
  ⟨rfl, fun _ => .nil, by simp [PriorityState.start], .nil⟩

lemma filled_start : Filled n reachable [] (.start n reachable) := by
  refine ⟨List.length_replicate, fun id => ?_, by simp [PriorityState.start, products], by simp⟩
  simp [PriorityState.start, priorityOf, firstRank, List.getD_eq_getElem?_getD,
    List.getElem?_replicate]
  split_ifs <;> rfl

/-- A listed merge is new; the slots stay. -/
lemma Seen.list (h : Seen rules st) (hlist : st.list r = .ok st') :
    Seen (rules ++ [r]) st' ∧ st'.priorities = st.priorities ∧ st'.reachable = st.reachable ∧
      st'.duplicateProducts = st.duplicateProducts ∧ st'.productIds = st.productIds := by
  rw [PriorityState.list] at hlist
  by_cases hmem : idTriple r ∈ st.sourcePairs
  · rw [if_pos hmem] at hlist
    cases hlist
  rw [if_neg hmem, Except.ok.injEq] at hlist
  subst hlist
  rw [h.sourcePairs] at hmem
  refine ⟨⟨by simp, fun hzero => ?_, fun t => ?_, ?_⟩, rfl, rfl, rfl, rfl⟩
  · -- no inversion so far, and none here
    by_cases hless : ∃ value ∈ st.previous, r.product < value
    · simp only [if_pos hless] at hzero
      exact absurd hzero (Nat.succ_ne_zero _)
    · simp only [if_neg hless] at hzero
      rw [List.map_append, List.map_singleton]
      refine List.isChain_append.mpr ⟨h.inversions hzero, .singleton _, fun x hx y hy => ?_⟩
      rw [List.getLast?_map, ← h.previous] at hx
      simp only [List.head?_cons, Option.mem_some_iff] at hy
      exact not_lt.mp fun hlt => hless ⟨x, hx, hy ▸ hlt⟩
  · rw [Finset.mem_insert, h.sourcePairs, List.map_append, List.mem_append, or_comm]
    simp
  · rw [List.map_append, List.map_singleton, ← List.concat_eq_append, List.nodup_concat]
    exact ⟨hmem, h.nodup⟩

/-- The listed merges do not depend on the slots. -/
lemma Seen.congr (h : Seen rules st) (hprev : st'.previous = st.previous)
    (hinv : st'.inversions = st.inversions) (hpairs : st'.sourcePairs = st.sourcePairs) :
    Seen rules st' :=
  ⟨hprev ▸ h.previous, hinv ▸ h.inversions, hpairs ▸ h.sourcePairs, h.nodup⟩

lemma firstRank_concat (adm : List (Rule ℕ TokenId)) (r : Rule ℕ TokenId) (id : TokenId) :
    firstRank (adm ++ [r]) id =
      if r.product = id ∧ id ∉ products adm then r.rank else firstRank adm id := by
  rw [firstRank, firstRank, List.find?_append]
  by_cases hid : id ∈ products adm
  · obtain ⟨x, hx, hxid⟩ := mem_products.mp hid
    cases hfind : adm.find? fun r => r.product = id with
    | none => exact absurd hxid (by simpa using List.find?_eq_none.mp hfind x hx)
    | some y => simp [hid]
  · have hfind : (adm.find? fun r => r.product = id) = none :=
      List.find?_eq_none.mpr fun x hx => by simpa using fun hxid => hid (mem_products.mpr ⟨x, hx, hxid⟩)
    by_cases hr : r.product = id <;> simp [hfind, hid, hr]

/-- Ranks start at one, so an empty slot is that of no product. -/
lemma firstRank_eq_zero (hrank : ∀ r ∈ adm, 0 < r.rank) :
    firstRank adm id = 0 ↔ id ∉ products adm := by
  rw [firstRank]
  cases hfind : adm.find? fun r => r.product = id with
  | none =>
      have := List.find?_eq_none.mp hfind
      simpa [mem_products] using this
  | some x =>
      have hx := List.mem_of_find?_eq_some hfind
      have hid : x.product = id := by simpa using List.find?_some hfind
      have hpos := hrank x hx
      simp only [Option.map_some, Option.getD_some, mem_products]
      exact iff_of_false hpos.ne' (not_not.mpr ⟨x, hx, hid⟩)

/-- An admitted merge fills the slot of its product, unless it is filled. -/
lemma Filled.concat (h : Filled n reachable adm st) (hrank : ∀ r' ∈ adm, 0 < r'.rank)
    (hlt : r.product < n) (hle : r.rank ≤ u32Max)
    (hreach : st'.reachable = insert r.product st.reachable)
    (hprio : st'.priorities =
      if st.slot r = 0 then st.priorities.set r.product r.rank else st.priorities) :
    Filled n reachable (adm ++ [r]) st' := by
  have hslot : st.slot r = 0 ↔ r.product ∉ products adm := by
    rw [PriorityState.slot, h.priority, firstRank_eq_zero hrank]
  refine ⟨?_, fun id => ?_, ?_, ?_⟩
  · rw [hprio]
    split_ifs
    · rw [List.length_set, h.length]
    · exact h.length
  · rw [firstRank_concat, hprio]
    by_cases hid : r.product = id
    · subst hid
      by_cases hmem : r.product ∈ products adm
      · simp [hslot, hmem, h.priority]
      · have hlen : r.product < st.priorities.length := h.length ▸ hlt
        simp [hslot, hmem, priorityOf, List.getD_eq_getElem?_getD, List.getElem?_set_self hlen]
    · have hset : priorityOf (st.priorities.set r.product r.rank) id =
          priorityOf st.priorities id := by
        rw [priorityOf, priorityOf, List.getD_eq_getElem?_getD, List.getD_eq_getElem?_getD,
          List.getElem?_set_ne hid]
      simp only [hid, false_and, if_false, ← h.priority]
      split_ifs
      · exact hset
      · rfl
  · rw [hreach, h.reachable]
    simp [products, Finset.union_insert, List.map_append]
  · simp only [List.mem_append, List.mem_singleton]
    rintro x (hx | rfl)
    · exact h.rank_le x hx
    · exact hle

/-! ### What the results say -/

/-- What a successful derivation says of the merge list. -/
structure Derived (vocab : VocabMap) (specials start : Finset TokenId) (n : ℕ)
    (rules : List (Rule ℕ TokenId)) (p : Priorities) : Prop where
  ranked : Ranked rules
  pos : ∀ r ∈ rules, 0 < r.rank
  nodup : (rules.map idTriple).Nodup
  parts : ∀ r ∈ rules, ∃ left right, vocab.lookup left = some r.left ∧
    vocab.lookup right = some r.right ∧ vocab.lookup (left ++ right) = some r.product
  /-- The slots of PRIORITY. -/
  length : p.priorities.length = n
  priority : ∀ id, priorityOf p.priorities id = firstRank (admitted specials start rules) id
  rank_le : ∀ r ∈ admitted specials start rules, r.rank ≤ u32Max
  inversions : p.inversions = 0 → (rules.map Rule.product).IsChain (· ≤ ·)
  nonProducts : p.nonProducts = 0 → ∀ id < n, id ∉ specials → id ∉ start →
    id ∈ products (admitted specials start rules)
  /-- Without the flag, no product is admitted twice. -/
  unique : p.exhaustiveSplits = false → ((admitted specials start rules).map Rule.product).Nodup
  cover : p.exhaustiveSplits = true →
    ∀ t, t ∈ rules.map idTriple ↔ t ∈ expectedPairs vocab

variable {vocab : VocabMap} {merges : List MergeLine} {base byteFallback : Finset TokenId}
  {p : Priorities}

lemma coverSplits_ok {nonProducts : ℕ} (h : coverSplits vocab st nonProducts = .ok p) :
    p.priorities = st.priorities ∧ p.inversions = st.inversions ∧ p.nonProducts = nonProducts ∧
      (p.exhaustiveSplits = false → st.duplicateProducts = 0) ∧
      (p.exhaustiveSplits = true → st.sourcePairs = expectedPairs vocab) := by
  rw [coverSplits] at h
  split_ifs at h with hdup hcover <;> cases h
  · simp [hdup]
  · simp [hcover]

/-- The merges before a place have lower ranks. -/
lemma rank_pos_of_map_rank {k : ℕ} (h : rules.map Rule.rank = List.range' 1 k) :
    ∀ r ∈ rules, 0 < r.rank := by
  intro r hr
  have hmem : r.rank ∈ rules.map Rule.rank := List.mem_map_of_mem hr
  rw [h, List.mem_range'_1] at hmem
  exact hmem.1

/-- A slot is that of an earlier merge. -/
lemma firstRank_mem (h : firstRank adm id ≠ 0) : ∃ r ∈ adm, firstRank adm id = r.rank := by
  rw [firstRank] at h ⊢
  cases hfind : adm.find? fun r => r.product = id with
  | none => simp [hfind] at h
  | some x => exact ⟨x, List.mem_of_find?_eq_some hfind, rfl⟩

/-- One turn of `derive_byte_priority`. -/
lemma bytePriorityStep_ok (hrank : ∀ r' ∈ rules, 0 < r'.rank) (hlt : r.product < n)
    (hseen : Seen rules st) (hfilled : Filled n reachable (admitted specials reachable rules) st)
    (hdup : st.duplicateProducts = 0 → ((admitted specials reachable rules).map Rule.product).Nodup)
    (h : bytePriorityStep specials st r = .ok st') :
    Seen (rules ++ [r]) st' ∧
      Filled n reachable (admitted specials reachable (rules ++ [r])) st' ∧
      (st'.duplicateProducts = 0 →
        ((admitted specials reachable (rules ++ [r])).map Rule.product).Nodup) := by
  obtain ⟨st₁, hlist, h⟩ := bind_eq_ok_iff.mp h
  obtain ⟨hseen₁, hprio, hreach, hdup₁, -⟩ := hseen.list hlist
  have hpos : ∀ r' ∈ admitted specials reachable rules, 0 < r'.rank := fun r' hr' =>
    hrank r' ((admitted_sublist _ _ _).subset hr')
  rw [admitted_concat, ← hfilled.reachable, ← hreach]
  have hslot : st₁.slot r = st.slot r := by rw [PriorityState.slot, hprio, PriorityState.slot]
  split_ifs at h with hskip hover hfull
  · -- passed over
    cases h
    simp only [Bool.not_eq_true'] at hskip
    rw [hskip]
    simp only [Bool.false_eq_true, if_false, List.append_nil]
    exact ⟨hseen₁, ⟨hprio ▸ hfilled.length, hprio ▸ hfilled.priority, hreach ▸ hfilled.reachable,
      hfilled.rank_le⟩, hdup₁ ▸ hdup⟩
  · -- a duplicate product
    obtain ⟨st₂, hst₂, h⟩ := bind_eq_ok_iff.mp h
    rw [PriorityState.duplicate] at hst₂
    split_ifs at hst₂
    cases hst₂
    cases h
    simp only [Bool.not_eq_true', Bool.not_eq_false] at hskip
    rw [if_pos hskip]
    refine ⟨hseen₁.congr rfl rfl rfl, hfilled.concat hpos hlt (not_lt.mp hover) ?_ ?_, ?_⟩
    · simp [PriorityState.reach, hreach]
    · rw [hslot] at hfull
      simp [PriorityState.reach, hprio, hfull]
    · simp [PriorityState.reach]
  · -- a new product
    cases h
    simp only [Bool.not_eq_true', Bool.not_eq_false] at hskip
    rw [if_pos hskip]
    refine ⟨hseen₁.congr rfl rfl rfl, hfilled.concat hpos hlt (not_lt.mp hover) ?_ ?_, ?_⟩
    · simp [PriorityState.reach, PriorityState.fill, hreach]
    · rw [hslot, not_not] at hfull
      simp [PriorityState.reach, PriorityState.fill, hprio, hfull]
    · intro hzero
      have hnodup := hdup (hdup₁ ▸ hzero)
      rw [hslot, not_not, PriorityState.slot, hfilled.priority, firstRank_eq_zero hpos] at hfull
      rw [List.map_append, List.map_singleton, ← List.concat_eq_append, List.nodup_concat]
      exact ⟨by simpa [products] using hfull, hnodup⟩

/-- `derive_byte_priority`. -/
theorem deriveBytePriority_ok (hvocab : ∀ t id, vocab.lookup t = some id → id < n)
    (h : deriveBytePriority merges vocab specials base n = .ok p) :
    ∃ rules, sourceRules vocab merges = .ok rules ∧ Derived vocab specials base n rules p := by
  obtain ⟨st, hst, h⟩ := bind_eq_ok_iff.mp h
  obtain ⟨rules, hrules, hfold⟩ := foldlM_mapM_ok hst
  obtain ⟨hrank, hparts⟩ := sourceRules_ok hrules
  have hpos := rank_pos_of_map_rank hrank
  have hinv : Seen rules st ∧ Filled n base (admitted specials base rules) st ∧
      (st.duplicateProducts = 0 → ((admitted specials base rules).map Rule.product).Nodup) := by
    refine foldlM_ok (I := fun done st => Seen done st ∧
      Filled n base (admitted specials base done) st ∧
      (st.duplicateProducts = 0 → ((admitted specials base done).map Rule.product).Nodup))
      ⟨seen_start, filled_start, by simp [admitted]⟩ ?_ hfold
    rintro done r st st' hdone ⟨hseen, hfilled, hdup⟩ hstep
    obtain ⟨left, right, -, -, hproduct⟩ := hparts r (hdone.subset (by simp))
    exact bytePriorityStep_ok (fun r' hr' => hpos r' (hdone.subset (by simp [hr'])))
      (hvocab _ _ hproduct) hseen hfilled hdup hstep
  obtain ⟨hseen, hfilled, hdup⟩ := hinv
  dsimp only at h
  split_ifs at h
  obtain ⟨hp, hinvs, hnon, hflag, hcover⟩ := coverSplits_ok h
  refine ⟨rules, hrules, ranked_of_map_rank hrank, hpos, hseen.nodup, hparts, hp ▸ hfilled.length,
    hp ▸ hfilled.priority, hfilled.rank_le, hinvs ▸ hseen.inversions, fun hzero id hid hs hb => ?_,
    fun hf => hdup (hflag hf), fun hf t => ?_⟩
  · rw [hnon, List.countP_eq_zero] at hzero
    have hid' := hzero id (List.mem_range.mpr hid)
    simpa [hs, hb, hfilled.reachable] using hid'
  · rw [← hcover hf, hseen.sourcePairs]

/-- The product of a listed merge is counted, and nothing else changes. -/
lemma product_ok (hids : st.productIds = products rules)
    (hdup : st.duplicateProducts = 0 → (rules.map Rule.product).Nodup)
    (h : st.product r = .ok st') :
    st'.productIds = products (rules ++ [r]) ∧
      (st'.duplicateProducts = 0 → ((rules ++ [r]).map Rule.product).Nodup) ∧
      st'.priorities = st.priorities ∧ st'.reachable = st.reachable ∧
      st'.previous = st.previous ∧ st'.inversions = st.inversions ∧
      st'.sourcePairs = st.sourcePairs := by
  have hmem : r.product ∈ st.productIds ↔ r.product ∈ rules.map Rule.product := by
    rw [hids, products, List.mem_toFinset]
  have hconcat : products (rules ++ [r]) = insert r.product (products rules) := by
    simp [products]
  rw [PriorityState.product] at h
  split_ifs at h with hold
  · rw [PriorityState.duplicate] at h
    split_ifs at h
    cases h
    refine ⟨?_, by simp, rfl, rfl, rfl, rfl, rfl⟩
    rw [hconcat, ← hids, Finset.insert_eq_of_mem hold]
  · cases h
    refine ⟨by rw [hconcat, ← hids], fun hzero => ?_, rfl, rfl, rfl, rfl, rfl⟩
    rw [List.map_append, List.map_singleton, ← List.concat_eq_append, List.nodup_concat]
    exact ⟨fun hin => hold (hmem.mpr hin), hdup hzero⟩

/-- One turn of `derive_priority`. Its test for a lower rank never succeeds, since the
ranks increase. -/
lemma priorityStep_ok (hrank : ∀ r' ∈ rules, 0 < r'.rank ∧ r'.rank < r.rank) (hlt : r.product < n)
    (hseen : Seen rules st) (hfilled : Filled n reachable (admitted specials reachable rules) st)
    (hids : st.productIds = products rules)
    (hdup : st.duplicateProducts = 0 → (rules.map Rule.product).Nodup)
    (h : priorityStep specials st r = .ok st') :
    Seen (rules ++ [r]) st' ∧
      Filled n reachable (admitted specials reachable (rules ++ [r])) st' ∧
      st'.productIds = products (rules ++ [r]) ∧
      (st'.duplicateProducts = 0 → ((rules ++ [r]).map Rule.product).Nodup) := by
  obtain ⟨st₁, hlist, h⟩ := bind_eq_ok_iff.mp h
  obtain ⟨st₂, hproduct, h⟩ := bind_eq_ok_iff.mp h
  obtain ⟨hseen₁, hprio₁, hreach₁, hdup₁, hids₁⟩ := hseen.list hlist
  obtain ⟨hids₂, hdup₂, hprio₂, hreach₂, hprev, hinv, hpairs⟩ :=
    product_ok (hids₁.trans hids) (fun hzero => hdup (hdup₁ ▸ hzero)) hproduct
  have hprio : st₂.priorities = st.priorities := hprio₂.trans hprio₁
  have hreach : st₂.reachable = st.reachable := hreach₂.trans hreach₁
  have hseen₂ : Seen (rules ++ [r]) st₂ := hseen₁.congr hprev hinv hpairs
  have hadm : ∀ r' ∈ admitted specials reachable rules, 0 < r'.rank ∧ r'.rank < r.rank :=
    fun r' hr' => hrank r' ((admitted_sublist _ _ _).subset hr')
  rw [admitted_concat, ← hfilled.reachable, ← hreach]
  have hslot : st₂.slot r = st.slot r := by rw [PriorityState.slot, hprio, PriorityState.slot]
  have hlow : st.slot r ≠ 0 → st.slot r < r.rank := by
    rw [PriorityState.slot, hfilled.priority]
    intro hne
    obtain ⟨x, hx, heq⟩ := firstRank_mem hne
    exact heq ▸ (hadm x hx).2
  split_ifs at h with hskip hover hfill
  · -- passed over
    cases h
    simp only [Bool.not_eq_true'] at hskip
    rw [hskip]
    simp only [Bool.false_eq_true, if_false, List.append_nil]
    exact ⟨hseen₂, ⟨hprio ▸ hfilled.length, hprio ▸ hfilled.priority, hreach ▸ hfilled.reachable,
      hfilled.rank_le⟩, hids₂, hdup₂⟩
  · -- an empty slot
    cases h
    simp only [Bool.not_eq_true', Bool.not_eq_false] at hskip
    rw [if_pos hskip]
    rw [hslot] at hfill
    have hzero : st.slot r = 0 := by
      by_contra hne
      rcases hfill with hfill | hfill
      · exact hne hfill
      · exact absurd hfill (hlow hne).not_gt
    refine ⟨hseen₂.congr rfl rfl rfl, hfilled.concat (fun r' hr' => (hadm r' hr').1) hlt
      (not_lt.mp hover) ?_ ?_, hids₂, hdup₂⟩
    · simp [PriorityState.reach, PriorityState.fill, hreach]
    · simp [PriorityState.reach, PriorityState.fill, hprio, hzero]
  · -- a product that has its priority
    cases h
    simp only [Bool.not_eq_true', Bool.not_eq_false] at hskip
    rw [if_pos hskip]
    rw [hslot, not_or] at hfill
    refine ⟨hseen₂.congr rfl rfl rfl, hfilled.concat (fun r' hr' => (hadm r' hr').1) hlt
      (not_lt.mp hover) ?_ ?_, hids₂, hdup₂⟩
    · simp [PriorityState.reach, hreach]
    · simp [PriorityState.reach, hprio, hfill.1]

/-- `derive_priority`. -/
theorem derivePriority_ok {allowNonProducts : Bool}
    (hvocab : ∀ t id, vocab.lookup t = some id → id < n)
    (h : derivePriority merges vocab specials byteFallback base n allowNonProducts = .ok p) :
    ∃ rules, sourceRules vocab merges = .ok rules ∧
      Derived vocab specials (base ∪ byteFallback) n rules p := by
  obtain ⟨st, hst, h⟩ := bind_eq_ok_iff.mp h
  obtain ⟨rules, hrules, hfold⟩ := foldlM_mapM_ok hst
  obtain ⟨hrank, hparts⟩ := sourceRules_ok hrules
  have hpos := rank_pos_of_map_rank hrank
  have hranked := ranked_of_map_rank hrank
  set start := base ∪ byteFallback with hstart
  have hinv : Seen rules st ∧ Filled n start (admitted specials start rules) st ∧
      st.productIds = products rules ∧
      (st.duplicateProducts = 0 → (rules.map Rule.product).Nodup) := by
    refine foldlM_ok (I := fun done st => Seen done st ∧
      Filled n start (admitted specials start done) st ∧ st.productIds = products done ∧
      (st.duplicateProducts = 0 → (done.map Rule.product).Nodup))
      ⟨seen_start, filled_start, rfl, by simp⟩ ?_ hfold
    rintro done r st st' hdone ⟨hseen, hfilled, hids, hdup⟩ hstep
    obtain ⟨left, right, -, -, hproduct⟩ := hparts r (hdone.subset (by simp))
    refine priorityStep_ok (fun r' hr' => ⟨hpos r' (hdone.subset (by simp [hr'])), ?_⟩)
      (hvocab _ _ hproduct) hseen hfilled hids hdup hstep
    exact (List.pairwise_append.mp (List.Pairwise.sublist hdone.sublist hranked)).2.2 r' hr' r
      (by simp)
  obtain ⟨hseen, hfilled, -, hdup⟩ := hinv
  have hpriority := hfilled.priority
  have hzero : ∀ id, priorityOf st.priorities id = 0 ↔
      id ∉ products (admitted specials start rules) := fun id => by
    rw [hpriority, firstRank_eq_zero fun r hr => hpos r ((admitted_sublist _ _ _).subset hr)]
  obtain ⟨nonProducts, hnon, hcover⟩ : ∃ nonProducts, (nonProducts = 0 → ∀ id < n,
      id ∉ specials → id ∉ start → id ∈ products (admitted specials start rules)) ∧
      coverSplits vocab st nonProducts = .ok p := by
    have hempty : ((List.range n).filter fun id => id ∉ specials && id ∉ byteFallback &&
        id ∉ base && priorityOf st.priorities id == 0) = [] → ∀ id < n,
        id ∉ specials → id ∉ start → id ∈ products (admitted specials start rules) := by
      intro hnil id hid hs hst
      rw [List.filter_eq_nil_iff] at hnil
      rw [hstart, Finset.mem_union, not_or] at hst
      have hid' := hnil id (List.mem_range.mpr hid)
      simp only [hs, hst, not_false_eq_true, decide_true, Bool.and_true, Bool.true_and,
        beq_iff_eq, hzero, not_not] at hid'
      exact hid'
    dsimp only at h
    split at h
    case h_1 id hid =>
        split_ifs at h
        exact ⟨_, fun hlen => hempty (List.length_eq_zero_iff.mp hlen), h⟩
    case h_2 hnone => exact ⟨0, fun _ => hempty (List.head?_eq_none_iff.mp hnone), h⟩
  obtain ⟨hp, hinvs, hcount, hflag, hcov⟩ := coverSplits_ok hcover
  refine ⟨rules, hrules, hranked, hpos, hseen.nodup, hparts, hp ▸ hfilled.length,
    hp ▸ hfilled.priority, hfilled.rank_le, hinvs ▸ hseen.inversions, hcount ▸ hnon,
    fun hf => (hdup (hflag hf)).sublist ((admitted_sublist _ _ _).map _), fun hf t => ?_⟩
  rw [← hcov hf, hseen.sourcePairs]

end Hypertok
