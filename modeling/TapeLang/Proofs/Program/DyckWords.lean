import Mathlib.Combinatorics.Enumerative.DyckWord
import TapeLang.Proofs.Program.Matching

/-!
# Dyck words

Two brackets of a program match each other if the brackets between them form a
Dyck word (`Matched`). The stack of open brackets grows and shrinks with the
heights of that word as long as no closing bracket reaches below the start
(`rises_or_reaches_below`), so the pairs that the stack finds are the brackets that
match (`pair_iff_matched`), and the table of partners is the table of the matching
(`partners_match_brackets`).
-/

namespace TapeLang

/-- An opening bracket is a step up and a closing one a step down. -/
def Instruction.dyckStep? : Instruction → Option DyckStep
  | .loopStart => some .U
  | .loopEnd => some .D
  | _ => none

/-- The brackets of a code form a Dyck word. -/
def Balanced (code : List Instruction) : Prop :=
  ∃ w : DyckWord, w.toList = code.filterMap Instruction.dyckStep?

section Balanced

variable {code : List Instruction}

private theorem count_steps {step : DyckStep} {i : Instruction}
    (h : ∀ j : Instruction, (j.dyckStep? == some step) = (j == i)) (code : List Instruction) :
    (code.filterMap Instruction.dyckStep?).count step = code.count i := by
  rw [List.count_filterMap, funext h, List.count]

private theorem count_up (code : List Instruction) :
    (code.filterMap Instruction.dyckStep?).count .U = code.count .loopStart :=
  count_steps (fun j ↦ by cases j <;> rfl) code

private theorem count_down (code : List Instruction) :
    (code.filterMap Instruction.dyckStep?).count .D = code.count .loopEnd :=
  count_steps (fun j ↦ by cases j <;> rfl) code

/-- A code is balanced if it closes as many brackets as it opens, and no front part of it closes more. -/
theorem balanced_iff :
    Balanced code ↔ code.count .loopStart = code.count .loopEnd ∧
      ∀ front, front <+: code → front.count .loopEnd ≤ front.count .loopStart := by
  constructor
  · rintro ⟨w, hw⟩
    refine ⟨?_, ?_⟩
    · rw [← count_up, ← count_down, ← hw]
      exact w.count_U_eq_count_D
    · intro front hfront
      have hprefix := hfront.filterMap Instruction.dyckStep?
      rw [← hw, List.prefix_iff_eq_take] at hprefix
      rw [← count_up, ← count_down, hprefix]
      exact w.count_D_le_count_U _
  · rintro ⟨hcount, hfront⟩
    refine ⟨⟨code.filterMap Instruction.dyckStep?, ?_, ?_⟩, rfl⟩
    · rw [count_up, count_down, hcount]
    · intro n
      obtain ⟨front, hprefix, htake⟩ := List.prefix_filterMap_iff.mp (List.take_prefix n _)
      rw [htake, count_up, count_down]
      exact hfront front hprefix

end Balanced

namespace Program

/-- The instructions from one position on that stand in front of another one. -/
def slice (p : Program) (n m : Nat) : List Instruction := (p.toList.take m).drop n

/-- An opening bracket and a later closing one match if the code strictly between them is balanced. -/
structure Matched (p : Program) (i j : Nat) : Prop where
  get?_start : p.get? i = some .loopStart
  get?_end : p.get? j = some .loopEnd
  lt : i < j
  balanced : Balanced (p.slice (i + 1) j)

variable {p : Program} {i j k l n m : Nat} {new : List Nat}

/-! ### Slices -/

theorem slice_self (p : Program) (n : Nat) : p.slice n n = [] :=
  List.drop_eq_nil_of_le (List.length_take_le _ _)

/-- One more position adds its instruction. -/
theorem slice_succ {a : Instruction} (hnm : n ≤ m) (h : p.get? m = some a) :
    p.slice n (m + 1) = p.slice n m ++ [a] := by
  have hm : m ≤ p.toList.length := Nat.le_of_lt (lt_size_of_get? h)
  rw [get?_eq_toList] at h
  rw [slice, List.take_add_one, h, List.drop_append_of_le_length]
  · rfl
  · rwa [List.length_take, Nat.min_eq_left hm]

private theorem count_slice_succ {a : Instruction} (hnm : n ≤ m) (h : p.get? m = some a)
    (i : Instruction) :
    (p.slice n (m + 1)).count i = (p.slice n m).count i + if a == i then 1 else 0 := by
  rw [slice_succ hnm h, List.count_append, List.count_singleton]

/-- The front parts of a slice are the slices that end earlier. -/
theorem prefix_slice_iff {front : List Instruction} (hnm : n ≤ m) :
    front <+: p.slice n m ↔ ∃ k, n ≤ k ∧ k ≤ m ∧ front = p.slice n k := by
  have htake (c : Nat) : (p.slice n m).take c = p.slice n (min (n + c) m) := by
    rw [slice, slice, List.take_drop, List.take_take]
  constructor
  · intro h
    rw [List.prefix_iff_eq_take, htake] at h
    exact ⟨_, by omega, Nat.min_le_right _ _, h⟩
  · rintro ⟨k, hnk, hkm, rfl⟩
    have hk : min (n + (k - n)) m = k := by omega
    rw [← hk, ← htake]
    exact List.take_prefix _ _

/-- A slice is balanced if it closes as many brackets as it opens, and none of its front parts closes more. -/
theorem balanced_slice_iff (hnm : n ≤ m) :
    Balanced (p.slice n m) ↔ (p.slice n m).count .loopStart = (p.slice n m).count .loopEnd ∧
      ∀ k, n ≤ k → k ≤ m → (p.slice n k).count .loopEnd ≤ (p.slice n k).count .loopStart := by
  rw [balanced_iff]
  refine and_congr_right fun _ ↦ ?_
  constructor
  · intro h k hnk hkm
    exact h _ ((prefix_slice_iff hnm).mpr ⟨k, hnk, hkm, rfl⟩)
  · intro h front hfront
    obtain ⟨k, hnk, hkm, rfl⟩ := (prefix_slice_iff hnm).mp hfront
    exact h k hnk hkm

/-! ### Heights of the stack -/

/-- Between two positions new brackets were put on the stack, as many as were opened and not closed. -/
structure Rises (p : Program) (n m : Nat) (new : List Nat) : Prop where
  openAt_eq : p.openAt m = new ++ p.openAt n
  count_eq : (p.slice n m).count .loopEnd + new.length = (p.slice n m).count .loopStart

theorem Rises.count_le (h : p.Rises n m new) :
    (p.slice n m).count .loopEnd ≤ (p.slice n m).count .loopStart :=
  Nat.le_of_add_right_le (Nat.le_of_eq h.count_eq)

theorem rises_self (p : Program) (n : Nat) : p.Rises n n [] := by
  refine ⟨rfl, ?_⟩
  rw [slice_self]
  rfl

theorem Rises.loopStart (h : p.Rises n m new) (hnm : n ≤ m) (hm : p.get? m = some .loopStart) :
    p.Rises n (m + 1) (m :: new) := by
  have hcount := h.count_eq
  refine ⟨?_, ?_⟩
  · rw [openAt_succ_loopStart hm, h.openAt_eq, List.cons_append]
  · rw [count_slice_succ hnm hm, count_slice_succ hnm hm, if_neg (by decide), if_pos (by decide),
      List.length_cons]
    omega

theorem Rises.loopEnd (h : p.Rises n m (i :: new)) (hnm : n ≤ m) (hm : p.get? m = some .loopEnd) :
    p.Rises n (m + 1) new := by
  have hcount := h.count_eq
  rw [List.length_cons] at hcount
  refine ⟨?_, ?_⟩
  · rw [openAt_succ_loopEnd hm, h.openAt_eq, List.cons_append, List.tail_cons]
  · rw [count_slice_succ hnm hm, count_slice_succ hnm hm, if_pos (by decide), if_neg (by decide)]
    omega

theorem Rises.of_ne {a : Instruction} (h : p.Rises n m new) (hnm : n ≤ m) (hm : p.get? m = some a)
    (hs : a ≠ .loopStart) (he : a ≠ .loopEnd) : p.Rises n (m + 1) new := by
  refine ⟨?_, ?_⟩
  · rw [openAt_succ_of_ne hm hs he, h.openAt_eq]
  · rw [count_slice_succ hnm hm, count_slice_succ hnm hm, if_neg (by simpa using he),
      if_neg (by simpa using hs)]
    exact h.count_eq

/-- From a position on, the stack rises over what was open there, up to the first closing bracket that finds nothing
new on it. -/
theorem rises_or_reaches_below (hnm : n ≤ m) (hm : m ≤ p.size) :
    (∃ new, p.Rises n m new) ∨
      ∃ k, n ≤ k ∧ k < m ∧ p.get? k = some .loopEnd ∧ p.Rises n k [] := by
  induction m, hnm using Nat.le_induction with
  | base => exact Or.inl ⟨[], rises_self p n⟩
  | succ m hnm ih =>
    rcases ih (Nat.le_of_lt hm) with ⟨new, hnew⟩ | ⟨k, hnk, hkm, hk, hbelow⟩
    · cases hget : p.get? m with
      | none =>
        have := get?_eq_none_iff.mp hget
        omega
      | some a =>
        by_cases hs : a = .loopStart
        · subst hs
          exact Or.inl ⟨_, hnew.loopStart hnm hget⟩
        by_cases he : a = .loopEnd
        · subst he
          cases new with
          | nil => exact Or.inr ⟨m, hnm, Nat.lt_succ_self m, hget, hnew⟩
          | cons i new => exact Or.inl ⟨_, hnew.loopEnd hnm hget⟩
        · exact Or.inl ⟨_, hnew.of_ne hnm hget hs he⟩
    · exact Or.inr ⟨k, hnk, Nat.lt_succ_of_lt hkm, hk, hbelow⟩

/-- Front parts that do not close more than they open let the stack rise. -/
theorem exists_rises (hnm : n ≤ m) (hm : m ≤ p.size)
    (h : ∀ k, n ≤ k → k ≤ m → (p.slice n k).count .loopEnd ≤ (p.slice n k).count .loopStart) :
    ∃ new, p.Rises n m new := by
  rcases rises_or_reaches_below hnm hm with hrises | ⟨k, hnk, hkm, hk, hbelow⟩
  · exact hrises
  · have hcount := hbelow.count_eq
    have hle := h (k + 1) (Nat.le_succ_of_le hnk) hkm
    rw [count_slice_succ hnk hk, count_slice_succ hnk hk, if_pos (by decide),
      if_neg (by decide)] at hle
    rw [List.length_nil] at hcount
    omega

/-- Inside a pair the stack rises over its opening bracket. -/
theorem Pair.exists_rises (h : p.Pair i j) (hik : i < k) (hkj : k ≤ j) :
    ∃ new, p.Rises (i + 1) k new := by
  have hk := Nat.le_trans hkj (Nat.le_of_lt (lt_size_of_get? h.1))
  rcases rises_or_reaches_below (Nat.succ_le_of_lt hik) hk with hrises | ⟨e, hie, hek, he, hbelow⟩
  · exact hrises
  · -- A closing bracket that finds nothing new takes the opening bracket itself off the stack.
    have hopen : i ∈ p.openAt (e + 1) := h.mem_openAt (by omega) (by omega)
    rw [openAt_succ_loopEnd he, hbelow.openAt_eq, List.nil_append,
      openAt_succ_loopStart h.get?_start, List.tail_cons] at hopen
    exact absurd (Program.mem_openAt hopen).2 (Nat.lt_irrefl i)

/-! ### The matching -/

/-- The pairs that the stack finds are the brackets that match. -/
theorem pair_iff_matched : p.Pair i j ↔ p.Matched i j := by
  constructor
  · intro h
    have hij : i + 1 ≤ j := h.lt
    refine ⟨h.get?_start, h.1, h.lt, (balanced_slice_iff hij).mpr ⟨?_, ?_⟩⟩
    · obtain ⟨new, hnew⟩ := h.exists_rises h.lt (Nat.le_refl j)
      obtain ⟨hend, outer, hopen⟩ := h
      have hlength := congrArg List.length hnew.openAt_eq
      have hcount := hnew.count_eq
      rw [hopen, openAt_succ_loopStart (openAt_eq_cons hopen).1, (openAt_eq_cons hopen).2.2,
        List.length_append] at hlength
      omega
    · intro k hik hkj
      obtain ⟨new, hnew⟩ := h.exists_rises hik hkj
      exact hnew.count_le
  · intro h
    have hij : i + 1 ≤ j := h.lt
    have hj := Nat.le_of_lt (lt_size_of_get? h.get?_end)
    obtain ⟨hcount, hfront⟩ := (balanced_slice_iff hij).mp h.balanced
    obtain ⟨new, hnew⟩ := Program.exists_rises hij hj hfront
    have hlength := hnew.count_eq
    obtain rfl : new = [] := List.eq_nil_of_length_eq_zero (by omega)
    refine ⟨h.get?_end, p.openAt i, ?_⟩
    rw [hnew.openAt_eq, List.nil_append, openAt_succ_loopStart h.get?_start]

/-- Pairs do not cross. -/
theorem Pair.not_crossing (h : p.Pair i j) (h' : p.Pair k l) : ¬ (i < k ∧ k < j ∧ j < l) := by
  rintro ⟨hik, hkj, hjl⟩
  have hopen : k ∈ p.openAt j := h'.mem_openAt hkj (Nat.le_of_lt hjl)
  obtain ⟨-, outer, ho⟩ := h
  rw [ho, ← (openAt_eq_cons ho).2.2] at hopen
  rcases List.mem_cons.mp hopen with rfl | hmem
  · exact Nat.lt_irrefl k hik
  · exact Nat.lt_asymm hik (Program.mem_openAt hmem).2

/-- What a table of partners has to say about a program. -/
structure MatchingTable (p : Program) (table : Array (Option Nat)) : Prop where
  /-- There is an entry for each position. -/
  size_eq : table.size = p.size
  /-- An entry holds the other one of two brackets that match. -/
  some_iff : ∀ i j : Nat, table[i]? = some (some j) ↔ p.Matched i j ∨ p.Matched j i
  /-- No position is its own partner. -/
  ne_self : ∀ i : Nat, table[i]? ≠ some (some i)
  /-- Partners are partners of each other. -/
  symm : ∀ i j : Nat, table[i]? = some (some j) ↔ table[j]? = some (some i)
  /-- Matched brackets do not cross. -/
  not_crossing : ∀ i j k l : Nat, table[i]? = some (some j) → table[k]? = some (some l) →
    ¬ (i < k ∧ k < j ∧ j < l)
  /-- An instruction that is no bracket has no partner. -/
  none_of_ne : ∀ (i : Nat) (a : Instruction), p.get? i = some a → a ≠ .loopStart → a ≠ .loopEnd →
    table[i]? = some none

/-- The table of partners is the table of the matching, for the program of every text. -/
theorem partners_match_brackets (text : String) :
    MatchingTable (ofText text) (ofText text).partners := by
  generalize ofText text = p
  have hpartner (i j : Nat) :
      p.partners[i]? = some (some j) ↔ p.Pair i j ∨ p.Pair j i := by
    rw [← partners_eq_some_iff, Array.getD_eq_getD_getElem?]
    cases p.partners[i]? <;> simp
  constructor
  case size_eq => exact size_partners p
  case some_iff =>
    intro i j
    rw [hpartner, pair_iff_matched, pair_iff_matched]
  case ne_self =>
    intro i h
    rcases (hpartner i i).mp h with h | h <;> exact Nat.lt_irrefl i h.lt
  case symm =>
    intro i j
    rw [hpartner, hpartner, or_comm]
  case not_crossing =>
    rintro i j k l hij hkl ⟨hik, hkj, hjl⟩
    have hij : p.Pair i j := ((hpartner i j).mp hij).resolve_right fun h ↦ by
      have := h.lt
      omega
    have hkl : p.Pair k l := ((hpartner k l).mp hkl).resolve_right fun h ↦ by
      have := h.lt
      omega
    exact hij.not_crossing hkl ⟨hik, hkj, hjl⟩
  case none_of_ne =>
    intro i a hi hs he
    have hlt : i < p.partners.size := by
      rw [size_partners]
      exact lt_size_of_get? hi
    rw [Array.getElem?_eq_getElem hlt]
    congr 1
    apply Option.eq_none_iff_forall_ne_some.mpr
    intro j hj
    rcases (hpartner i j).mp (by rw [Array.getElem?_eq_getElem hlt, hj]) with h | h
    · exact hs (Option.some.inj (hi.symm.trans h.get?_start))
    · exact he (Option.some.inj (hi.symm.trans h.1))

end Program

end TapeLang
