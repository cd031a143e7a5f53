import TapeLang.Transition.Passes

/-!
# Induction over passes

A pass puts two kinds of words into a table: loops that a value lands by, and
words that the table has, one behind the other. So what holds of the unary words
and of these loops, and of one word behind another, holds of every word of every
table built by passes (`afterPasses_induction`).
-/

namespace TapeLang.Transition

/-- A property of words together with the value they start at and the value they lead to. -/
abbrev WordProperty := Word → UInt8 → UInt8 → Prop

def Row.Holds (Q : WordProperty) (r : Row) (start : UInt8) : Prop :=
  ∀ target, Q (r.word target) start target

def Table.Holds (Q : WordProperty) (t : Table) : Prop := ∀ start, (t.row start).Holds Q start

variable {Q : WordProperty}

/-! ### Loops -/

/-- Loops are taken into each row by itself. -/
theorem row_discoverLoops (t : Table) (start : UInt8) :
    t.discoverLoops.row start = (t.row start).discoverLoops start := by
  simp [Table.discoverLoops, Table.row]

section Loops

variable (loop : ∀ start, ∀ candidate ∈ landings start, Q candidate.1.word start candidate.2)
include loop

private theorem holds_offer {r : Row} {start : UInt8} (h : r.Holds Q start)
    {candidate : MultiplyLoop × UInt8} (hcandidate : candidate ∈ landings start) :
    (r.offer candidate).Holds Q start := by
  unfold Row.offer
  split
  · intro target
    rw [Row.word_setWord]
    split
    · next heq =>
      rw [heq]
      exact loop start candidate hcandidate
    · exact h target
  · exact h

private theorem holds_discoverLoops_row {r : Row} {start : UInt8} (h : r.Holds Q start) :
    (r.discoverLoops start).Holds Q start := by
  rw [Row.discoverLoops]
  exact List.foldlRecOn (motive := fun r : Row ↦ r.Holds Q start) (landings start) Row.offer h
    fun _ hr _ hcandidate ↦ holds_offer loop hr hcandidate

/-- Loops may be taken into a table. -/
theorem Table.Holds.discoverLoops {t : Table} (h : t.Holds Q) : t.discoverLoops.Holds Q := by
  intro start
  rw [row_discoverLoops]
  exact holds_discoverLoops_row loop (h start)

end Loops

/-! ### Words over a value in between -/

section Relaxation

variable (append : ∀ {w w' : Word} {a e b : UInt8}, Q w a e → Q w' e b → Q (w ++ w') a b)
include append

private theorem holds_via {r onward : Row} {start between : UInt8} (hr : r.Holds Q start)
    (honward : onward.Holds Q between) : (r.via (r.word between) onward).Holds Q start := by
  intro target
  rw [Row.word_via]
  split
  · exact append (hr between) (honward target)
  · exact hr target

private theorem holds_relaxedRow {t : Table} (h : t.Holds Q) (start : UInt8) :
    (t.relaxedRow start).Holds Q start := by
  rw [Table.relaxedRow]
  exact List.foldlRecOn (motive := fun r : Row ↦ r.Holds Q start) allValues _ (h start)
    fun _ hr between _ ↦ holds_via append hr (h between)

private theorem holds_relaxRow {t : Table} (h : t.Holds Q) (start : UInt8) :
    (t.relaxRow start).Holds Q := by
  intro other
  rw [Table.relaxRow, Table.row_setRow]
  split
  · next heq =>
    rw [heq]
    exact holds_relaxedRow append h start
  · exact h other

/-- A table may be relaxed. -/
theorem Table.Holds.relax {t : Table} (h : t.Holds Q) : t.relax.Holds Q := by
  rw [Table.relax]
  exact List.foldlRecOn (motive := Table.Holds Q) allValues Table.relaxRow h
    fun _ ht start _ ↦ holds_relaxRow append ht start

end Relaxation

/-- What holds of the unary words, of the loops that are tried and of one word behind another holds of every word of
the tables built by passes. -/
theorem afterPasses_induction (unary : ∀ start target, Q (unaryWord start target) start target)
    (loop : ∀ start, ∀ candidate ∈ landings start, Q candidate.1.word start candidate.2)
    (append : ∀ {w w' : Word} {a e b : UInt8}, Q w a e → Q w' e b → Q (w ++ w') a b) (n : Nat) :
    (Table.afterPasses n).Holds Q := by
  induction n with
  | zero =>
    intro start target
    have hword := Table.word_unary start target
    rw [Table.word] at hword
    rw [Table.afterPasses, hword]
    exact unary start target
  | succ n ih =>
    rw [Table.afterPasses, Table.pass]
    exact (ih.discoverLoops loop).relax append

/-- The table in use is the one after the fixed number of passes. -/
theorem get_standardTable : standardTable.get = Table.afterPasses passes := by
  have hget (f : Unit → Table) : (Thunk.mk f).get = f () := rfl
  rw [standardTable, hget]

end TapeLang.Transition
