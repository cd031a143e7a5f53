import TapeLang.Proofs.Structured.Evaluation

/-!
# Walks

A walk is a complete evaluation with a bound on its cost and on the cells it
visits: the pointer never stands to the left of one cell and never moves to the
right of another. There is one rule for each way through a block, so the walks of
a composed block are put together from those of its parts.
-/

namespace TapeLang

/-- The visit finds the pointer at or right of `lo`, and does not move it to the right of `hi`. -/
def Visit.Within (lo hi : Nat) (v : Visit) : Prop :=
  lo ≤ v.store.pointer ∧ (v.instruction = .right → v.store.pointer + 1 ≤ hi)

/-- A complete evaluation of at most `cost` visits that stays right of `lo` and moves right up to `hi`. -/
def Walks (input : List UInt8) (lo hi : Nat) (c : Control) (cost : Nat) (s s' : Store) : Prop :=
  ∃ vs, Evaluates input c s vs (some s') ∧ vs.length ≤ cost ∧ ∀ v ∈ vs, v.Within lo hi

variable {input : List UInt8} {lo lo' hi hi' cost cost' : Nat} {c : Control} {s s' t : Store}
  {body rest b d : Block} {a : Basic} {v : Visit}

namespace Visit

theorem Within.mono (h : v.Within lo hi) (hlo : lo' ≤ lo) (hhi : hi ≤ hi') : v.Within lo' hi' := by
  obtain ⟨hleft, hright⟩ := h
  exact ⟨Nat.le_trans hlo hleft, fun hmove ↦ Nat.le_trans (hright hmove) hhi⟩

/-- An instruction that does not move right stays within every bound on the right. -/
theorem within_of_ne_right (hlo : lo ≤ v.store.pointer) (h : v.instruction ≠ .right) :
    v.Within lo hi :=
  ⟨hlo, fun hright ↦ absurd hright h⟩

end Visit

namespace Walks

/-- The bounds may be taken wider. -/
theorem mono (h : Walks input lo hi c cost s s') (hlo : lo' ≤ lo) (hhi : hi ≤ hi')
    (hcost : cost ≤ cost') : Walks input lo' hi' c cost' s s' := by
  obtain ⟨vs, hevaluates, hlength, hcells⟩ := h
  exact ⟨vs, hevaluates, Nat.le_trans hlength hcost, fun v hv ↦ (hcells v hv).mono hlo hhi⟩

theorem done : Walks input lo hi (.front .done) 0 s s :=
  ⟨[], .done, Nat.le_refl 0, fun _ hv ↦ absurd hv List.not_mem_nil⟩

theorem basic (hlo : lo ≤ s.pointer) (hhi : a = .right → s.pointer + 1 ≤ hi)
    (next : Walks input lo hi (.front rest) cost (a.apply input s) s') :
    Walks input lo hi (.front (.basic a rest)) (cost + 1) s s' := by
  obtain ⟨vs, hevaluates, hlength, hcells⟩ := next
  refine ⟨_, .basic hevaluates, Nat.succ_le_succ hlength, ?_⟩
  refine List.forall_mem_cons.mpr ⟨⟨hlo, fun hright ↦ hhi ?_⟩, hcells⟩
  cases a <;> first | rfl | contradiction

theorem skip (hlo : lo ≤ s.pointer) (zero : s.cell = 0)
    (next : Walks input lo hi (.front rest) cost s s') :
    Walks input lo hi (.front (.loop body rest)) (cost + 1) s s' := by
  obtain ⟨vs, hevaluates, hlength, hcells⟩ := next
  refine ⟨_, .skip zero hevaluates, Nat.succ_le_succ hlength, ?_⟩
  exact List.forall_mem_cons.mpr ⟨Visit.within_of_ne_right hlo Instruction.noConfusion, hcells⟩

theorem enter (hlo : lo ≤ s.pointer) (nonzero : s.cell ≠ 0)
    (next : Walks input lo hi (.inside body rest) cost s s') :
    Walks input lo hi (.front (.loop body rest)) (cost + 1) s s' := by
  obtain ⟨vs, hevaluates, hlength, hcells⟩ := next
  refine ⟨_, .enter nonzero hevaluates, Nat.succ_le_succ hlength, ?_⟩
  exact List.forall_mem_cons.mpr ⟨Visit.within_of_ne_right hlo Instruction.noConfusion, hcells⟩

-- The visits of a round, the end of the loop, and the visits behind it.
private theorem cells_of_round {vs ws : List Visit} (hlo : lo ≤ t.pointer)
    (hvs : ∀ v ∈ vs, v.Within lo hi) (hws : ∀ v ∈ ws, v.Within lo hi) :
    ∀ v ∈ vs ++ Visit.mk .loopEnd t :: ws, v.Within lo hi := by
  have hend : (Visit.mk .loopEnd t).Within lo hi :=
    Visit.within_of_ne_right hlo Instruction.noConfusion
  exact List.forall_mem_append.mpr ⟨hvs, List.forall_mem_cons.mpr ⟨hend, hws⟩⟩

theorem again (hlo : lo ≤ t.pointer) (round : Walks input lo hi (.front body) cost s t)
    (nonzero : t.cell ≠ 0) (next : Walks input lo hi (.inside body rest) cost' t s') :
    Walks input lo hi (.inside body rest) (cost + 1 + cost') s s' := by
  obtain ⟨vs, hround, hlength, hcells⟩ := round
  obtain ⟨ws, hnext, hlength', hcells'⟩ := next
  refine ⟨_, .again hround nonzero hnext, ?_, cells_of_round hlo hcells hcells'⟩
  rw [List.length_append, List.length_cons]
  omega

theorem leave (hlo : lo ≤ t.pointer) (round : Walks input lo hi (.front body) cost s t)
    (zero : t.cell = 0) (next : Walks input lo hi (.front rest) cost' t s') :
    Walks input lo hi (.inside body rest) (cost + 1 + cost') s s' := by
  obtain ⟨vs, hround, hlength, hcells⟩ := round
  obtain ⟨ws, hnext, hlength', hcells'⟩ := next
  refine ⟨_, .leave hround zero hnext, ?_, cells_of_round hlo hcells hcells'⟩
  rw [List.length_append, List.length_cons]
  omega

/-- A walk goes on with the walk of the block behind. -/
theorem append (h : Walks input lo hi (.front b) cost s t)
    (next : Walks input lo hi (.front d) cost' t s') :
    Walks input lo hi (.front (b.append d)) (cost + cost') s s' := by
  obtain ⟨vs, hevaluates, hlength, hcells⟩ := h
  obtain ⟨ws, hnext, hlength', hcells'⟩ := next
  refine ⟨vs ++ ws, hevaluates.append hnext, ?_, List.forall_mem_append.mpr ⟨hcells, hcells'⟩⟩
  rw [List.length_append]
  omega

end Walks

end TapeLang
