import TapeLang.Program.Counts
import TapeLang.Proofs.Structured.Simulation

/-!
# Nesting of blocks

The loops of a block lie inside each other as the tree says: the depth that is
counted over the code of a block is the depth of the tree (`maxLoopDepth_eq`), and
a basic instruction of the code stands either outside of all loops of the tree or
between two brackets that are a pair (`exists_pair_around`).
-/

namespace TapeLang

/-- Different basic instructions are different instructions. -/
theorem Basic.instruction_inj {a a' : Basic} (h : a.instruction = a'.instruction) : a = a' := by
  cases a <;> cases a' <;> first | rfl | contradiction

namespace Block

/-- The greatest number of loops around one place of a block. -/
def depth : Block → Nat
  | done => 0
  | basic _ rest => rest.depth
  | loop body rest => max (body.depth + 1) rest.depth

/-- The basic instructions that stand in no loop. -/
def outside : Block → List Basic
  | done => []
  | basic a rest => a :: rest.outside
  | loop _ rest => rest.outside

variable {p : Program} {b c : Block} {a : Basic} {i n : Nat}

theorem depth_append (b c : Block) : (b.append c).depth = max b.depth c.depth := by
  induction b with
  | done => exact (Nat.zero_max _).symm
  | basic a rest ih => exact ih
  | loop body rest _ ih => rw [append, depth, depth, ih, Nat.max_assoc]

theorem outside_append (b c : Block) : (b.append c).outside = b.outside ++ c.outside := by
  induction b with
  | done => rfl
  | basic a rest ih => rw [append, outside, outside, ih, List.cons_append]
  | loop body rest _ ih => rw [append, outside, outside, ih]

theorem depth_times (a : Basic) (n : Nat) : (times a n).depth = 0 := by
  induction n with
  | zero => rfl
  | succ n ih => exact ih

/-- The count over the code of a block comes back to the depth in front of it, and on its way it rises above that by
the depth of the block. -/
theorem foldl_next_code (b : Block) (d deepest : Nat) (h : d ≤ deepest) :
    b.code.foldl Program.Nesting.next ⟨d, deepest⟩ = ⟨d, max deepest (d + b.depth)⟩ := by
  induction b generalizing d deepest with
  | done =>
    rw [depth, Nat.add_zero, Nat.max_eq_left h]
    rfl
  | basic a rest ih =>
    have hnext : Program.Nesting.next ⟨d, deepest⟩ a.instruction = ⟨d, deepest⟩ := by
      cases a <;> rfl
    rw [code, List.foldl_cons, hnext, ih d deepest h, depth]
  | loop body rest ihbody ih =>
    have hstart : Program.Nesting.next ⟨d, deepest⟩ .loopStart = ⟨d + 1, max deepest (d + 1)⟩ := rfl
    have hend (m : Nat) : Program.Nesting.next ⟨d + 1, m⟩ .loopEnd = ⟨d, m⟩ := rfl
    rw [code, List.foldl_cons, List.foldl_append, List.foldl_cons, hstart,
      ihbody _ _ (Nat.le_max_right _ _), hend, ih _ _ (by omega), depth]
    congr 1
    omega

/-- The nesting counted over the program of a block is the depth of the block. -/
theorem maxLoopDepth_eq (hb : b.code = p.toList) : p.maxLoopDepth = b.depth := by
  have hfold : p.code.foldl Program.Nesting.next {} = p.toList.foldl Program.Nesting.next {} :=
    (Array.foldl_toList _).symm
  rw [Program.maxLoopDepth, hfold, ← hb, foldl_next_code b 0 0 (Nat.le_refl 0), Nat.zero_add,
    Nat.zero_max]

/-- A basic instruction of a block that does not stand outside of its loops stands inside a pair of brackets. -/
theorem exists_pair_around (h : p.Spells n b.code) (hni : n ≤ i) (hi : i < n + b.code.length)
    (hget : p.get? i = some a.instruction) (ha : a ∉ b.outside) :
    ∃ j k, p.Pair j k ∧ j < i ∧ i < k := by
  induction b generalizing n with
  | done => exact absurd hi (Nat.not_lt.mpr hni)
  | basic a' rest ih =>
    obtain ⟨hfirst, hrest⟩ := h
    rw [outside, List.mem_cons, not_or] at ha
    rw [code, List.length_cons] at hi
    rcases Nat.eq_or_lt_of_le hni with rfl | hlt
    · exact absurd (Basic.instruction_inj (Option.some.inj (hget.symm.trans hfirst))) ha.1
    · exact ih hrest hlt (by omega) ha.2
  | loop body rest _ ih =>
    obtain ⟨hstart, hinner⟩ := h
    have hpair := Program.pair_of_spells hstart hinner
    obtain ⟨-, hend, hrest⟩ := Program.spells_append.mp hinner
    rw [code, List.length_cons, List.length_append, List.length_cons] at hi
    rcases Nat.eq_or_lt_of_le hni with rfl | hlt
    · exact absurd (Option.some.inj (hget.symm.trans hstart)) a.instruction_ne_loopStart
    rcases Nat.lt_trichotomy i (n + 1 + body.code.length) with hinside | rfl | hbehind
    · exact ⟨_, _, hpair, hlt, hinside⟩
    · exact absurd (Option.some.inj (hget.symm.trans hend)) a.instruction_ne_loopEnd
    · exact ih hrest hbehind (by omega) ha

end Block

end TapeLang
