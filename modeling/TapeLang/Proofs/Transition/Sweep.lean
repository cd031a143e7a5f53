import Mathlib.Data.List.Basic
import TapeLang.Proofs.Transition.Shortening

/-!
# Relaxation in place

A relaxation can be made in one sweep over a single table that replaces one word
at a time. Each word is read as it stands when it is needed, except the first half
of a way, which is read once for all the values it may lead to. While a row is
swept no other one changes. So the second half of a way is the word that the
relaxation of that row reads, unless the way leads over the first value itself,
and then it is not shorter in either of them. The sweep makes the same table as
the relaxation (`sweep_eq_relax`).
-/

namespace TapeLang.Transition

variable {t : Table} {r : Row} {first : Word} {start between : UInt8}

namespace Row

/-- Rows with the same words are the same. -/
theorem ext_word {r r' : Row} (h : ∀ target, r.word target = r'.word target) : r = r' := by
  apply Vector.ext
  intro i hi
  exact h (UInt8.ofNatLT i hi)

/-- Go on from a first word with the word of a row for one value, if that is shorter. -/
def viaAt (first : Word) (onward r : Row) (target : UInt8) : Row :=
  if first.size + (onward.word target).size < (r.word target).size then
    r.setWord target (first ++ onward.word target)
  else r

theorem word_viaAt (first : Word) (onward r : Row) (target other : UInt8) :
    (viaAt first onward r target).word other =
      if other = target then (r.via first onward).word other else r.word other := by
  rw [word_via]
  unfold viaAt
  split
  · next hlt =>
    rw [word_setWord]
    split
    · next heq => rw [heq, if_pos hlt]
    · rfl
  · next hge =>
    split
    · next heq => rw [heq, if_neg hge]
    · rfl

/-- The words for the values of a list are replaced, each by itself. -/
theorem word_foldl_viaAt (first : Word) (onward : Row) {targets : List UInt8}
    (h : targets.Nodup) (r : Row) (other : UInt8) :
    (targets.foldl (viaAt first onward) r).word other =
      if other ∈ targets then (r.via first onward).word other else r.word other := by
  induction targets generalizing r with
  | nil => rfl
  | cons target targets ih =>
    obtain ⟨hnotMem, hnodup⟩ := List.nodup_cons.mp h
    rw [List.foldl_cons, ih hnodup, word_via, word_viaAt]
    by_cases heq : other = target
    · subst heq
      rw [if_neg hnotMem, if_pos rfl, if_pos List.mem_cons_self]
    · rw [if_neg heq, ← word_via]
      simp only [List.mem_cons, heq, false_or]

/-- Trying the values one after another tries them all. -/
theorem foldl_viaAt (first : Word) (onward r : Row) :
    allValues.foldl (viaAt first onward) r = r.via first onward := by
  apply ext_word
  intro target
  have hnodup : allValues.Nodup := pairwise_allValues.imp UInt8.ne_of_lt
  rw [word_foldl_viaAt first onward hnodup, if_pos (mem_allValues target)]

/-- Nothing is shorter on the way over a row whose words are no shorter. -/
theorem via_eq_self {onward : Row} (h : ∀ target, (r.word target).size ≤ (onward.word target).size)
    (first : Word) : r.via first onward = r := by
  apply ext_word
  intro target
  have htarget := h target
  rw [word_via, if_neg (by omega)]

end Row

namespace Table

/-- Tables with the same rows are the same. -/
theorem ext_row {t t' : Table} (h : ∀ start, t.row start = t'.row start) : t = t' := by
  obtain ⟨rows⟩ := t
  obtain ⟨rows'⟩ := t'
  congr 1
  apply Vector.ext
  intro i hi
  exact h (UInt8.ofNatLT i hi)

theorem setRow_row (t : Table) (start : UInt8) : t.setRow start (t.row start) = t := by
  apply ext_row
  intro other
  rw [row_setRow]
  split
  · next heq => rw [heq]
  · rfl

theorem setRow_setRow (t : Table) (start : UInt8) (r r' : Row) :
    (t.setRow start r).setRow start r' = t.setRow start r' := by
  apply ext_row
  intro other
  simp only [row_setRow]
  split <;> rfl

/-! ### The sweep -/

def setWord (t : Table) (start target : UInt8) (w : Word) : Table :=
  t.setRow start ((t.row start).setWord target w)

/-- Go on from a first word with the word from a value between, if that is shorter than the present word. -/
def shortcut (start between : UInt8) (first : Word) (t : Table) (target : UInt8) : Table :=
  if first.size + t.cost between target < t.cost start target then
    t.setWord start target (first ++ t.word between target)
  else t

/-- Try the ways from one value over another to every value. -/
def sweepOver (start : UInt8) (t : Table) (between : UInt8) : Table :=
  allValues.foldl (shortcut start between (t.word start between)) t

/-- Try the ways from one value over every value. -/
def sweepRow (t : Table) (start : UInt8) : Table := allValues.foldl (sweepOver start) t

/-- Try all ways over one value, in increasing order and in place. -/
def sweep (t : Table) : Table := allValues.foldl sweepRow t

/-- A shortcut over another value changes one row, and the row of that value stays as it is. -/
theorem shortcut_setRow (hne : between ≠ start) (t : Table) (r : Row) (target : UInt8) :
    shortcut start between first (t.setRow start r) target =
      t.setRow start (Row.viaAt first (t.row between) r target) := by
  have hstart : (t.setRow start r).row start = r := by rw [row_setRow, if_pos rfl]
  have hbetween : (t.setRow start r).row between = t.row between := by
    rw [row_setRow, if_neg hne]
  unfold shortcut Row.viaAt setWord cost word
  rw [hstart, hbetween]
  split
  · rw [setRow_setRow]
  · rfl

/-- No shortcut leads over the first value itself. -/
theorem shortcut_self (start : UInt8) (t : Table) (target : UInt8) :
    shortcut start start first t target = t := by
  rw [shortcut, if_neg (by omega)]

/-- The ways over one value change the swept row as its relaxation does. Only over the first value itself the two read
different words, those of the row being swept and those it had before, and there neither finds a shorter way. -/
theorem sweepOver_setRow (h : (t.row start).ShortensTo r) (between : UInt8) :
    sweepOver start (t.setRow start r) between = t.setRow start (r.viaValue t.row between) := by
  by_cases hne : between = start
  · subst hne
    have hsame : r.viaValue t.row between = r := Row.via_eq_self h.size_le _
    rw [hsame, sweepOver]
    exact List.foldl_fixed' (shortcut_self between _) allValues
  · have hword : (t.setRow start r).word start between = r.word between := by
      rw [word, row_setRow, if_pos rfl]
    rw [sweepOver, hword, List.foldl_hom (t.setRow start) (shortcut_setRow hne t), Row.foldl_viaAt]
    rfl

theorem foldl_sweepOver (h : (t.row start).ShortensTo r) (betweens : List UInt8) :
    betweens.foldl (sweepOver start) (t.setRow start r) =
      t.setRow start (betweens.foldl (Row.viaValue t.row) r) := by
  induction betweens generalizing r with
  | nil => rfl
  | cons between betweens ih =>
    rw [List.foldl_cons, sweepOver_setRow h, List.foldl_cons]
    exact ih (h.trans (r.shortensTo_viaValue t.row between))

/-- Sweeping a row relaxes it. -/
theorem sweepRow_eq (t : Table) (start : UInt8) : t.sweepRow start = t.relaxRow start := by
  have hrow := foldl_sweepOver (.refl (t.row start)) allValues
  rw [setRow_row] at hrow
  exact hrow

/-- The sweep in place and the relaxation of the rows one by one lead to the same table. -/
theorem sweep_eq_relax (t : Table) : t.sweep = t.relax := by
  have hstep : sweepRow = relaxRow := by
    funext t start
    exact t.sweepRow_eq start
  rw [sweep, hstep]
  rfl

end Table

end TapeLang.Transition
