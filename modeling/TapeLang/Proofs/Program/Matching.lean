import TapeLang.Program.Brackets

/-!
# Matching of brackets

What the passes over the brackets of a program compute, for balanced and
unbalanced programs alike. `openAt` is the stack of open brackets in front of a
position; a pair is a closing bracket with the top of that stack. The table of
partners holds exactly the pairs (`partners_eq_some_iff`), and a bracket is
reported as unmatched exactly when it belongs to no pair
(`stray_mem_unmatched_iff`, `unclosed_mem_unmatched_iff`).
-/

namespace TapeLang.Program

variable {p : Program} {i j k n : Nat}

/-- The positions of the brackets open behind the first `n` instructions, innermost first. -/
def openAt (p : Program) (n : Nat) : List Nat := (p.openBrackets n).stack

def unmatchedScan (p : Program) (n : Nat) : UnmatchedScan :=
  (p.toList.take n).foldl UnmatchedScan.next {}

def partnerScan (p : Program) (n : Nat) : PartnerScan :=
  (p.toList.take n).foldl PartnerScan.next { partners := Array.replicate p.size none }

/-- The closing bracket at `j` takes the opening bracket at `i` off the stack. -/
def Pair (p : Program) (i j : Nat) : Prop :=
  p.get? j = some .loopEnd ∧ ∃ outer, p.openAt j = i :: outer

/-- A closing bracket in front of which nothing is open. -/
def isStray (p : Program) (j : Nat) : Bool :=
  p.get? j = some .loopEnd ∧ p.openAt j = []

/-! ### The stack of open brackets -/

private theorem take_succ_of_get? {a : Instruction} (h : p.get? n = some a) :
    p.toList.take (n + 1) = p.toList.take n ++ [a] := by
  rw [get?_eq_toList] at h
  rw [List.take_add_one, h]
  rfl

private theorem take_succ_of_end (h : p.get? n = none) :
    p.toList.take (n + 1) = p.toList.take n := by
  rw [get?_eq_toList] at h
  rw [List.take_add_one, h]
  exact List.append_nil _

/-- An instruction is found exactly at the positions inside the program. -/
theorem get?_eq_none_iff : p.get? n = none ↔ p.size ≤ n := by
  simp [get?, size]

/-- A position that holds an instruction lies inside the program. -/
theorem lt_size_of_get? {a : Instruction} (h : p.get? n = some a) : n < p.size := by
  apply Nat.lt_of_not_le
  intro hn
  rw [get?_eq_none_iff.mpr hn] at h
  contradiction

/-- One more instruction is one more step of the pass. -/
theorem openBrackets_succ {a : Instruction} (h : p.get? n = some a) :
    p.openBrackets (n + 1) = (p.openBrackets n).next a := by
  rw [openBrackets, take_succ_of_get? h, List.foldl_append]
  rfl

/-- The pass counts the instructions it has seen. -/
theorem position_openBrackets (h : n ≤ p.size) : (p.openBrackets n).position = n := by
  induction n with
  | zero => rfl
  | succ n ih =>
    cases hn : p.get? n with
    | none =>
      have := get?_eq_none_iff.mp hn
      omega
    | some a =>
      rw [openBrackets_succ hn]
      exact congrArg (· + 1) (ih (by omega))

@[simp] theorem openAt_zero : p.openAt 0 = [] := rfl

/-- Behind the end of the program the stack stays as it is. -/
theorem openAt_succ_of_end (h : p.get? n = none) : p.openAt (n + 1) = p.openAt n := by
  rw [openAt, openBrackets, take_succ_of_end h]
  rfl

/-- An opening bracket is pushed. -/
theorem openAt_succ_loopStart (h : p.get? n = some .loopStart) :
    p.openAt (n + 1) = n :: p.openAt n := by
  have hn := position_openBrackets (Nat.le_of_lt (lt_size_of_get? h))
  rw [openAt, openBrackets_succ h]
  simp only [OpenBrackets.next, hn, openAt]

/-- A closing bracket takes the innermost open one away, if there is one. -/
theorem openAt_succ_loopEnd (h : p.get? n = some .loopEnd) :
    p.openAt (n + 1) = (p.openAt n).tail := by
  rw [openAt, openBrackets_succ h]
  rfl

/-- Every other instruction leaves the stack as it is. -/
theorem openAt_succ_of_ne {a : Instruction} (h : p.get? n = some a) (hs : a ≠ .loopStart)
    (he : a ≠ .loopEnd) : p.openAt (n + 1) = p.openAt n := by
  rw [openAt, openBrackets_succ h]
  cases a <;> first | rfl | contradiction

/-- The top of the stack is an opening bracket in front of which the rest of the stack is open. -/
theorem openAt_eq_cons {outer : List Nat} (h : p.openAt n = i :: outer) :
    p.get? i = some .loopStart ∧ i < n ∧ p.openAt i = outer := by
  induction n using Nat.strongRecOn generalizing i outer with
  | ind n ih =>
    cases n with
    | zero => simp at h
    | succ n =>
      have lift (h : p.openAt n = i :: outer) :
          p.get? i = some .loopStart ∧ i < n + 1 ∧ p.openAt i = outer := by
        obtain ⟨hi, hlt, hrest⟩ := ih n (Nat.lt_succ_self n) h
        exact ⟨hi, Nat.lt_succ_of_lt hlt, hrest⟩
      cases hn : p.get? n with
      | none => exact lift (openAt_succ_of_end hn ▸ h)
      | some a =>
        by_cases hs : a = .loopStart
        · subst hs
          rw [openAt_succ_loopStart hn] at h
          obtain ⟨rfl, rfl⟩ := List.cons.inj h
          exact ⟨hn, Nat.lt_succ_self _, rfl⟩
        by_cases he : a = .loopEnd
        · subst he
          rw [openAt_succ_loopEnd hn] at h
          -- The bracket below the one taken away was on top when that one was pushed.
          cases ho : p.openAt n with
          | nil => simp [ho] at h
          | cons o below =>
            rw [ho, List.tail_cons] at h
            subst h
            obtain ⟨-, hlt, hbelow⟩ := ih n (Nat.lt_succ_self n) ho
            obtain ⟨hi, hio, hrest⟩ := ih o (Nat.lt_succ_of_lt hlt) hbelow
            exact ⟨hi, by omega, hrest⟩
        · exact lift (openAt_succ_of_ne hn hs he ▸ h)

/-- Every open bracket is an opening bracket in front of the position. -/
theorem mem_openAt (h : i ∈ p.openAt n) : p.get? i = some .loopStart ∧ i < n := by
  induction n using Nat.strongRecOn with
  | ind n ih =>
    cases ho : p.openAt n with
    | nil => simp [ho] at h
    | cons o below =>
      obtain ⟨hstart, hlt, hbelow⟩ := openAt_eq_cons ho
      rw [ho] at h
      cases h with
      | head => exact ⟨hstart, hlt⟩
      | tail _ hi =>
        obtain ⟨hget, hio⟩ := ih o hlt (hbelow ▸ hi)
        exact ⟨hget, Nat.lt_trans hio hlt⟩

/-- A bracket that is not open any more is not opened again. -/
theorem not_mem_openAt_of_le (hin : i < n) (hnk : n ≤ k) (h : i ∉ p.openAt n) :
    i ∉ p.openAt k := by
  induction hnk with
  | refl => exact h
  | @step k hnk ih =>
    cases hk : p.get? k with
    | none => rwa [openAt_succ_of_end hk]
    | some a =>
      by_cases hs : a = .loopStart
      · subst hs
        rw [openAt_succ_loopStart hk, List.mem_cons]
        rintro (rfl | hmem)
        · exact Nat.lt_irrefl i (Nat.lt_of_lt_of_le hin hnk)
        · exact ih hmem
      by_cases he : a = .loopEnd
      · subst he
        rw [openAt_succ_loopEnd hk]
        exact fun hmem ↦ ih (List.mem_of_mem_tail hmem)
      · rwa [openAt_succ_of_ne hk hs he]

/-- A bracket open at a position has been open at every position since it was opened. -/
theorem mem_openAt_of_le (hin : i < n) (hnk : n ≤ k) (h : i ∈ p.openAt k) : i ∈ p.openAt n :=
  Classical.byContradiction fun hn ↦ not_mem_openAt_of_le hin hnk hn h

/-! ### Pairs -/

namespace Pair

/-- A pair begins with an opening bracket. -/
theorem get?_start (h : p.Pair i j) : p.get? i = some .loopStart :=
  let ⟨_, _, ho⟩ := h
  (openAt_eq_cons ho).1

/-- The opening bracket comes first. -/
theorem lt (h : p.Pair i j) : i < j :=
  let ⟨_, _, ho⟩ := h
  (openAt_eq_cons ho).2.1

/-- Behind a pair the same brackets are open as in front of it. -/
theorem openAt_succ (h : p.Pair i j) : p.openAt (j + 1) = p.openAt i := by
  obtain ⟨hj, outer, ho⟩ := h
  rw [openAt_succ_loopEnd hj, ho, (openAt_eq_cons ho).2.2]
  rfl

/-- Inside a pair its opening bracket is open. -/
theorem mem_openAt (h : p.Pair i j) (hik : i < k) (hkj : k ≤ j) : i ∈ p.openAt k := by
  obtain ⟨-, outer, ho⟩ := h
  exact mem_openAt_of_le hik hkj (by simp [ho])

/-- Behind a pair its opening bracket is not open. -/
theorem not_mem_openAt (h : p.Pair i j) (hjk : j < k) : i ∉ p.openAt k := by
  apply not_mem_openAt_of_le (Nat.lt_succ_of_lt h.lt) hjk
  rw [h.openAt_succ]
  exact fun hmem ↦ Nat.lt_irrefl i (Program.mem_openAt hmem).2

/-- A closing bracket closes one bracket only. -/
theorem start_unique (h : p.Pair i j) (h' : p.Pair k j) : i = k := by
  obtain ⟨-, _, ho⟩ := h
  obtain ⟨-, _, ho'⟩ := h'
  exact (List.cons.inj (ho.symm.trans ho')).1

/-- An opening bracket is closed once only. -/
theorem end_unique (h : p.Pair i j) (h' : p.Pair i k) : j = k := by
  rcases Nat.lt_trichotomy j k with hlt | heq | hgt
  · exact False.elim (h.not_mem_openAt hlt (h'.mem_openAt h'.lt (Nat.le_refl k)))
  · exact heq
  · exact False.elim (h'.not_mem_openAt hgt (h.mem_openAt h.lt (Nat.le_refl j)))

end Pair

/-- An opening bracket that belongs to no pair stays open. -/
theorem mem_openAt_of_unpaired (hi : p.get? i = some .loopStart) (hin : i < n)
    (h : ∀ j, ¬ p.Pair i j) : i ∈ p.openAt n := by
  induction hin with
  | refl => simp [openAt_succ_loopStart hi]
  | @step n _ ih =>
    cases hn : p.get? n with
    | none => rwa [openAt_succ_of_end hn]
    | some a =>
      by_cases hs : a = .loopStart
      · subst hs
        rw [openAt_succ_loopStart hn]
        exact List.mem_cons_of_mem n ih
      by_cases he : a = .loopEnd
      · subst he
        rw [openAt_succ_loopEnd hn]
        cases ho : p.openAt n with
        | nil => simp [ho] at ih
        | cons o below =>
          rw [ho] at ih
          cases ih with
          | head => exact False.elim (h n ⟨hn, below, ho⟩)
          | tail _ hmem => exact hmem
      · rwa [openAt_succ_of_ne hn hs he]

/-! ### The table of partners -/

/-- The search for partners makes the same pass. -/
theorem toOpenBrackets_partnerScan (p : Program) (n : Nat) :
    (p.partnerScan n).toOpenBrackets = p.openBrackets n :=
  (List.foldl_hom PartnerScan.toOpenBrackets fun _ _ ↦ rfl).symm

private theorem stack_partnerScan (p : Program) (n : Nat) :
    (p.partnerScan n).stack = p.openAt n :=
  congrArg OpenBrackets.stack (toOpenBrackets_partnerScan p n)

private theorem position_partnerScan (h : n ≤ p.size) : (p.partnerScan n).position = n := by
  rw [toOpenBrackets_partnerScan, position_openBrackets h]

private theorem partnerScan_succ {a : Instruction} (h : p.get? n = some a) :
    p.partnerScan (n + 1) = (p.partnerScan n).next a := by
  rw [partnerScan, take_succ_of_get? h, List.foldl_append]
  rfl

private theorem size_partnerScan (p : Program) (n : Nat) :
    (p.partnerScan n).partners.size = p.size := by
  induction n with
  | zero => simp [partnerScan]
  | succ n ih =>
    cases hn : p.get? n with
    | none => rwa [partnerScan, take_succ_of_end hn]
    | some a =>
      rw [partnerScan_succ hn, ← ih]
      unfold PartnerScan.next
      split <;> simp

private theorem getD_partnerScan_succ_of_pair {start : Nat} (h : p.Pair start n) (i : Nat) :
    (p.partnerScan (n + 1)).partners.getD i none =
      if i = n then some start
      else if i = start then some n
      else (p.partnerScan n).partners.getD i none := by
  have hend : n < (p.partnerScan n).partners.size := by
    rw [size_partnerScan]
    exact lt_size_of_get? h.1
  have hstart : start < (p.partnerScan n).partners.size := Nat.lt_trans h.lt hend
  obtain ⟨hn, outer, ho⟩ := h
  have hpos := position_partnerScan (Nat.le_of_lt (lt_size_of_get? hn))
  have hstack : (p.partnerScan n).stack = start :: outer := (stack_partnerScan p n).trans ho
  rw [partnerScan_succ hn]
  simp only [PartnerScan.next, hstack, hpos, Array.getD_eq_getD_getElem?,
    Array.getElem?_setIfInBounds, Array.size_setIfInBounds]
  by_cases hin : i = n
  · simp [hin, hend]
  by_cases his : i = start
  · subst his
    simp [hin, Ne.symm hin, hstart]
  · simp [hin, his, Ne.symm hin, Ne.symm his]

private theorem partnerScan_succ_of_unpaired (h : ∀ start, ¬ p.Pair start n) :
    (p.partnerScan (n + 1)).partners = (p.partnerScan n).partners := by
  cases hn : p.get? n with
  | none => rw [partnerScan, take_succ_of_end hn, partnerScan]
  | some a =>
    rw [partnerScan_succ hn]
    unfold PartnerScan.next
    dsimp only
    split
    · next start outer ho =>
      rw [stack_partnerScan] at ho
      exact False.elim (h start ⟨hn, outer, ho⟩)
    · rfl

/-- The brackets at `i` and `j` are a pair, in one order or the other, that ends in front of `n`. -/
def PairedBefore (p : Program) (n i j : Nat) : Prop :=
  p.Pair i j ∧ j < n ∨ p.Pair j i ∧ i < n

/-- One more position adds the pair that ends there. -/
theorem pairedBefore_succ :
    p.PairedBefore (n + 1) i j ↔
      p.PairedBefore n i j ∨ (p.Pair i j ∧ j = n ∨ p.Pair j i ∧ i = n) := by
  simp only [PairedBefore, Nat.lt_succ_iff_lt_or_eq, and_or_left]
  exact or_or_or_comm

/-- A bracket is in no pair that ends in front of it. -/
theorem not_pairedBefore_self : ¬ p.PairedBefore n n j := by
  rintro (⟨hj, hlt⟩ | ⟨-, hlt⟩)
  · exact Nat.lt_asymm hj.lt hlt
  · exact Nat.lt_irrefl n hlt

/-- The start of a pair is in no pair that ends earlier. -/
theorem Pair.not_pairedBefore_start (h : p.Pair i n) : ¬ p.PairedBefore n i j := by
  rintro (⟨hj, hlt⟩ | ⟨hj, -⟩)
  · rw [hj.end_unique h] at hlt
    exact Nat.lt_irrefl n hlt
  · have hget := hj.1.symm.trans h.get?_start
    contradiction

private theorem getD_partnerScan_eq_some_iff :
    (p.partnerScan n).partners.getD i none = some j ↔ p.PairedBefore n i j := by
  induction n with
  | zero =>
    simp only [partnerScan, List.take_zero, List.foldl_nil, Array.getD_eq_getD_getElem?,
      Array.getElem?_replicate, PairedBefore, Nat.not_lt_zero, and_false, or_self, iff_false]
    split <;> simp
  | succ n ih =>
    rw [pairedBefore_succ]
    by_cases hpair : ∃ start, p.Pair start n
    · obtain ⟨start, hstart⟩ := hpair
      rw [getD_partnerScan_succ_of_pair hstart]
      split
      · next hin =>
        subst hin
        rw [Option.some.injEq, or_iff_right not_pairedBefore_self]
        constructor
        · rintro rfl
          exact Or.inr ⟨hstart, rfl⟩
        · rintro (⟨hj, rfl⟩ | ⟨hj, -⟩)
          · exact False.elim (Nat.lt_irrefl _ hj.lt)
          · exact hstart.start_unique hj
      split
      · next his =>
        subst his
        rw [Option.some.injEq, or_iff_right hstart.not_pairedBefore_start]
        constructor
        · rintro rfl
          exact Or.inl ⟨hstart, rfl⟩
        · rintro (⟨-, hj⟩ | ⟨-, hi⟩)
          · exact hj.symm
          · contradiction
      · next hin his =>
        rw [ih, or_iff_left]
        rintro (⟨hj, rfl⟩ | ⟨-, hi⟩)
        · exact his (hj.start_unique hstart)
        · exact hin hi
    · rw [partnerScan_succ_of_unpaired fun start hstart ↦ hpair ⟨start, hstart⟩, ih, or_iff_left]
      rintro (⟨hj, rfl⟩ | ⟨hj, rfl⟩)
      · exact hpair ⟨i, hj⟩
      · exact hpair ⟨j, hj⟩

private theorem partners_eq_partnerScan (p : Program) :
    p.partners = (p.partnerScan p.size).partners := by
  rw [partners, partnerScan, ← length_toList, List.take_length, toList, Array.foldl_toList]

/-- The table of partners has an entry for each position of the program. -/
theorem size_partners (p : Program) : p.partners.size = p.size := by
  rw [partners_eq_partnerScan, size_partnerScan]

/-- The table of partners holds the pairs, each in both directions, and nothing else. -/
theorem partners_eq_some_iff : p.partners.getD i none = some j ↔ p.Pair i j ∨ p.Pair j i := by
  rw [partners_eq_partnerScan, getD_partnerScan_eq_some_iff]
  constructor
  · rintro (⟨h, -⟩ | ⟨h, -⟩)
    · exact Or.inl h
    · exact Or.inr h
  · rintro (h | h)
    · exact Or.inl ⟨h, lt_size_of_get? h.1⟩
    · exact Or.inr ⟨h, lt_size_of_get? h.1⟩

/-- The partner of an opening bracket is the end of its pair. -/
theorem partners_loopStart (hi : p.get? i = some .loopStart) :
    p.partners.getD i none = some j ↔ p.Pair i j := by
  rw [partners_eq_some_iff]
  constructor
  · rintro (h | h)
    · exact h
    · have := hi.symm.trans h.1
      contradiction
  · exact Or.inl

/-- The partner of a closing bracket is the start of its pair. -/
theorem partners_loopEnd (hj : p.get? j = some .loopEnd) :
    p.partners.getD j none = some i ↔ p.Pair i j := by
  rw [partners_eq_some_iff]
  constructor
  · rintro (h | h)
    · have := hj.symm.trans h.get?_start
      contradiction
    · exact h
  · exact Or.inr

/-! ### Unmatched brackets -/

/-- The search for unmatched brackets makes the same pass. -/
theorem toOpenBrackets_unmatchedScan (p : Program) (n : Nat) :
    (p.unmatchedScan n).toOpenBrackets = p.openBrackets n :=
  (List.foldl_hom UnmatchedScan.toOpenBrackets fun _ _ ↦ rfl).symm

/-- The search for unmatched brackets keeps the same stack. -/
theorem stack_unmatchedScan (p : Program) (n : Nat) : (p.unmatchedScan n).stack = p.openAt n :=
  congrArg OpenBrackets.stack (toOpenBrackets_unmatchedScan p n)

private theorem position_unmatchedScan (h : n ≤ p.size) :
    (p.unmatchedScan n).position = n := by
  rw [toOpenBrackets_unmatchedScan, position_openBrackets h]

private theorem strays_next (s : UnmatchedScan) (a : Instruction) :
    (s.next a).strays =
      if a = .loopEnd ∧ s.stack = [] then s.position :: s.strays else s.strays := by
  unfold UnmatchedScan.next
  dsimp only
  split
  · next hs => rw [if_pos ⟨rfl, hs⟩]
  · next hs => rw [if_neg fun h ↦ hs h.1 h.2]

/-- The noted closing brackets are those with nothing open in front of them, latest first. -/
theorem strays_unmatchedScan (p : Program) (n : Nat) :
    (p.unmatchedScan n).strays = ((List.range n).filter p.isStray).reverse := by
  induction n with
  | zero => rfl
  | succ n ih =>
    rw [List.range_succ, List.filter_append, List.reverse_append]
    cases hn : p.get? n with
    | none =>
      rw [unmatchedScan, take_succ_of_end hn, ← unmatchedScan, ih]
      simp [isStray, hn]
    | some a =>
      have hpos := position_unmatchedScan (Nat.le_of_lt (lt_size_of_get? hn))
      rw [unmatchedScan, take_succ_of_get? hn, List.foldl_append, List.foldl_cons,
        List.foldl_nil, ← unmatchedScan, strays_next, stack_unmatchedScan, hpos, ih]
      by_cases hs : a = .loopEnd ∧ p.openAt n = []
      · simp [isStray, hn, hs]
      · simp only [isStray, hn, Option.some.injEq, hs, decide_false, ↓reduceIte,
          List.filter_cons, List.filter_nil, Bool.false_eq_true, List.reverse_nil,
          List.nil_append]

/-- The report lists the stray closing brackets from left to right, then the brackets that stay
open. -/
theorem unmatched_eq (p : Program) :
    p.unmatched = ((List.range p.size).filter p.isStray).map (⟨']', ·⟩) ++
      (p.openAt p.size).map (⟨'[', ·⟩) := by
  have hscan : p.code.foldl UnmatchedScan.next {} = p.unmatchedScan p.size := by
    rw [unmatchedScan, ← length_toList, List.take_length, toList, Array.foldl_toList]
  rw [unmatched]
  simp only [hscan, strays_unmatchedScan, stack_unmatchedScan, List.reverse_reverse]

/-- A closing bracket is reported exactly when nothing is open in front of it. -/
theorem stray_mem_unmatched_iff :
    ⟨']', j⟩ ∈ p.unmatched ↔ p.get? j = some .loopEnd ∧ p.openAt j = [] := by
  rw [unmatched_eq]
  constructor
  · intro h
    have hstray : j < p.size ∧ p.get? j = some .loopEnd ∧ p.openAt j = [] := by
      simpa [isStray] using h
    exact hstray.2
  · intro h
    have hj := lt_size_of_get? h.1
    simp [isStray, h, hj]

/-- An opening bracket is reported exactly when it is still open at the end. -/
theorem unclosed_mem_unmatched_iff : ⟨'[', i⟩ ∈ p.unmatched ↔ i ∈ p.openAt p.size := by
  rw [unmatched_eq]
  simp

/-- A closing bracket is reported exactly when it has no partner. -/
theorem stray_mem_unmatched_iff_partner (hj : p.get? j = some .loopEnd) :
    ⟨']', j⟩ ∈ p.unmatched ↔ p.partners.getD j none = none := by
  rw [stray_mem_unmatched_iff, Option.eq_none_iff_forall_ne_some]
  simp only [ne_eq, partners_loopEnd hj, hj, true_and]
  constructor
  · rintro hnil i ⟨-, outer, ho⟩
    rw [hnil] at ho
    contradiction
  · intro h
    cases ho : p.openAt j with
    | nil => rfl
    | cons i outer => exact False.elim (h i ⟨hj, outer, ho⟩)

/-- An opening bracket is reported exactly when it has no partner. -/
theorem unclosed_mem_unmatched_iff_partner (hi : p.get? i = some .loopStart) :
    ⟨'[', i⟩ ∈ p.unmatched ↔ p.partners.getD i none = none := by
  rw [unclosed_mem_unmatched_iff, Option.eq_none_iff_forall_ne_some]
  simp only [ne_eq, partners_loopStart hi]
  constructor
  · intro hmem j hpair
    exact hpair.not_mem_openAt (lt_size_of_get? hpair.1) hmem
  · exact mem_openAt_of_unpaired hi (lt_size_of_get? hi)

end TapeLang.Program
