import TapeLang.Proofs.Transition.Passes

/-!
# Passes shorten words

A pass changes an entry only to a strictly shorter word (`shortensTo_pass`), so the
tables built by passes have no entry longer than the unary one
(`cost_afterPasses_le`). A relaxation works on the rows one after another, and the
row of a value is relaxed over rows of which those of the smaller values are
relaxed already (`exists_relaxed_before`). Hence a relaxed entry is the old one or
a shorter way over other values, and no way over one value is shorter than it
(`relaxed_entry_is_shorter_way`).
-/

namespace TapeLang.Transition

/-- Each word of the new row is the old one or strictly shorter than it. -/
def Row.ShortensTo (old new : Row) : Prop :=
  ∀ target, new.word target = old.word target ∨ (new.word target).size < (old.word target).size

/-- The words from a value over others to a last one, one behind the other. -/
def Table.along (t : Table) (start : UInt8) : List UInt8 → UInt8 → Word
  | [], target => t.word start target
  | between :: rest, target => t.word start between ++ t.along between rest target

variable {t : Table} {r old new : Row} {start between target : UInt8}

/-! ### Shorter rows -/

namespace Row

theorem ShortensTo.refl (r : Row) : r.ShortensTo r := fun _ ↦ Or.inl rfl

theorem ShortensTo.size_le (h : old.ShortensTo new) (target : UInt8) :
    (new.word target).size ≤ (old.word target).size := by
  rcases h target with heq | hlt
  · exact Nat.le_of_eq (congrArg Array.size heq)
  · exact Nat.le_of_lt hlt

theorem ShortensTo.trans (h : r.ShortensTo old) (h' : old.ShortensTo new) : r.ShortensTo new := by
  intro target
  rcases h' target with heq | hlt
  · rw [heq]
    exact h target
  · exact Or.inr (Nat.lt_of_lt_of_le hlt (h.size_le target))

/-- Changes that each shorten a row shorten it together. -/
theorem shortensTo_foldl {α : Type} {change : Row → α → Row}
    (h : ∀ (r : Row) (a : α), r.ShortensTo (change r a)) (l : List α) (r : Row) :
    r.ShortensTo (l.foldl change r) := by
  induction l generalizing r with
  | nil => exact .refl r
  | cons a l ih => exact (h r a).trans (ih (change r a))

theorem shortensTo_offer (r : Row) (candidate : MultiplyLoop × UInt8) :
    r.ShortensTo (r.offer candidate) := by
  unfold offer
  split
  · next hlt =>
    intro target
    rw [word_setWord]
    split
    · next heq =>
      rw [heq, candidate.1.size_word]
      exact Or.inr hlt
    · exact Or.inl rfl
  · exact .refl r

theorem shortensTo_via (r : Row) (first : Word) (onward : Row) :
    r.ShortensTo (r.via first onward) := by
  intro target
  rw [word_via]
  split
  · next hlt =>
    rw [Array.size_append]
    exact Or.inr hlt
  · exact Or.inl rfl

/-- A row is no longer than the way that was offered to it. -/
theorem size_via_le (r : Row) (first : Word) (onward : Row) (target : UInt8) :
    ((r.via first onward).word target).size ≤ first.size + (onward.word target).size := by
  rw [word_via]
  split
  · exact Nat.le_of_eq Array.size_append
  · omega

/-- Go on from the word to a value with the words of that value's row. -/
def viaValue (onward : UInt8 → Row) (r : Row) (between : UInt8) : Row :=
  r.via (r.word between) (onward between)

theorem shortensTo_viaValue (onward : UInt8 → Row) (r : Row) (between : UInt8) :
    r.ShortensTo (r.viaValue onward between) :=
  r.shortensTo_via _ _

/-- Behind all ways over a value of the list no word is longer than the first way over it: the word to the value
between may have become shorter before its turn, and the word to the last value after it. -/
theorem size_foldl_viaValue_le (onward : UInt8 → Row) {betweens : List UInt8}
    (h : between ∈ betweens) (r : Row) (target : UInt8) :
    ((betweens.foldl (viaValue onward) r).word target).size ≤
      (r.word between).size + ((onward between).word target).size := by
  induction betweens generalizing r with
  | nil => contradiction
  | cons e rest ih =>
    rw [List.foldl_cons]
    rcases List.mem_cons.mp h with rfl | hrest
    · have hlater := shortensTo_foldl (shortensTo_viaValue onward) rest (r.viaValue onward between)
      exact Nat.le_trans (hlater.size_le target) (r.size_via_le _ _ target)
    · have hearlier := (r.shortensTo_viaValue onward e).size_le between
      exact Nat.le_trans (ih hrest _) (Nat.add_le_add_right hearlier _)

end Row

/-! ### The rows of a relaxation -/

theorem mem_allValues (value : UInt8) : value ∈ allValues :=
  List.mem_map.mpr ⟨value.toNat, List.mem_range.mpr value.toNat_lt, UInt8.ofNat_toNat⟩

theorem pairwise_allValues : allValues.Pairwise (· < ·) := by
  rw [allValues, List.pairwise_map]
  apply List.Pairwise.imp_of_mem _ List.pairwise_lt_range
  intro a b ha hb hab
  rw [List.mem_range] at ha hb
  rw [UInt8.lt_iff_toNat_lt, UInt8.toNat_ofNat', UInt8.toNat_ofNat', Nat.mod_eq_of_lt ha,
    Nat.mod_eq_of_lt hb]
  exact hab

/-- The values in front of one value are the smaller ones, and those behind it are greater. -/
theorem exists_allValues_eq (value : UInt8) :
    ∃ front rest, allValues = front ++ value :: rest ∧ (∀ e ∈ front, e < value) ∧
      ∀ e ∈ rest, value < e := by
  obtain ⟨front, rest, hsplit⟩ := List.append_of_mem (mem_allValues value)
  have hpairwise := pairwise_allValues
  rw [hsplit, List.pairwise_append] at hpairwise
  obtain ⟨-, hbehind, hfront⟩ := hpairwise
  exact ⟨front, rest, hsplit, fun e he ↦ hfront e he value List.mem_cons_self,
    (List.pairwise_cons.mp hbehind).1⟩

namespace Table

/-- Relaxing the rows of other values leaves a row as it is. -/
theorem row_foldl_relaxRow {starts : List UInt8} (h : start ∉ starts) (t : Table) :
    (starts.foldl relaxRow t).row start = t.row start := by
  induction starts generalizing t with
  | nil => rfl
  | cons e starts ih =>
    rw [List.mem_cons, not_or] at h
    rw [List.foldl_cons, ih h.2, relaxRow, row_setRow, if_neg h.1]

/-- The row of a value is relaxed over the rows of a table in which the smaller values have their relaxed rows and
the others still their old ones. -/
theorem exists_relaxed_before (t : Table) (start : UInt8) :
    ∃ before : Table, t.relax.row start = before.relaxedRow start ∧
      (∀ e, e < start → before.row e = t.relax.row e) ∧
      ∀ e, start ≤ e → before.row e = t.row e := by
  obtain ⟨front, rest, hsplit, hfront, hrest⟩ := exists_allValues_eq start
  have hstart : start ∉ rest := fun h ↦ UInt8.lt_irrefl start (hrest start h)
  have hrelax : t.relax = rest.foldl relaxRow ((front.foldl relaxRow t).relaxRow start) := by
    rw [relax, hsplit, List.foldl_append, List.foldl_cons]
  refine ⟨front.foldl relaxRow t, ?_, ?_, ?_⟩
  · rw [hrelax, row_foldl_relaxRow hstart, relaxRow, row_setRow, if_pos rfl]
  · intro e he
    have hbehind : e ∉ rest := fun h ↦ UInt8.lt_asymm he (hrest e h)
    rw [hrelax, row_foldl_relaxRow hbehind, relaxRow, row_setRow, if_neg (UInt8.ne_of_lt he)]
  · intro e he
    exact row_foldl_relaxRow (fun h ↦ UInt8.not_lt.mpr he (hfront e h)) t

theorem shortensTo_relaxedRow (t : Table) (start : UInt8) :
    (t.row start).ShortensTo (t.relaxedRow start) :=
  Row.shortensTo_foldl (Row.shortensTo_viaValue t.row) allValues (t.row start)

/-- A relaxation changes a word only to a shorter one. -/
theorem shortensTo_relax (t : Table) (start : UInt8) :
    (t.row start).ShortensTo (t.relax.row start) := by
  obtain ⟨before, hrow, -, hold⟩ := t.exists_relaxed_before start
  rw [hrow, ← hold start (UInt8.le_refl start)]
  exact before.shortensTo_relaxedRow start

/-- A pass changes a word only to a shorter one. -/
theorem shortensTo_pass (t : Table) (start : UInt8) :
    (t.row start).ShortensTo (t.pass.row start) := by
  have hloops : (t.row start).ShortensTo (t.discoverLoops.row start) := by
    rw [row_discoverLoops]
    exact Row.shortensTo_foldl Row.shortensTo_offer _ _
  exact hloops.trans (t.discoverLoops.shortensTo_relax start)

/-- No entry is longer than the distance it covers. -/
theorem cost_afterPasses_le (n : Nat) (start target : UInt8) :
    (afterPasses n).cost start target ≤ (distance start target).natAbs := by
  induction n with
  | zero =>
    rw [afterPasses, cost, word_unary]
    exact Nat.le_of_eq (size_unaryWord start target)
  | succ n ih => exact Nat.le_trans (((afterPasses n).shortensTo_pass start).size_le target) ih

/-! ### Ways over other values -/

/-- One way behind another is the way over the values of both. -/
theorem along_append (t : Table) (start between target : UInt8) (path path' : List UInt8) :
    t.along start path between ++ t.along between path' target =
      t.along start (path ++ between :: path') target := by
  induction path generalizing start with
  | nil => rfl
  | cons e path ih => rw [List.cons_append, along, along, Array.append_assoc, ih]

/-- Every relaxed word is the word of some way. -/
theorem exists_along_relax (t : Table) (start target : UInt8) :
    ∃ path, t.relax.word start target = t.along start path target := by
  apply Holds.relax (Q := fun w a b ↦ ∃ path, w = t.along a path b)
  · rintro w w' a e b ⟨path, rfl⟩ ⟨path', rfl⟩
    exact ⟨_, t.along_append a e b path path'⟩
  · exact fun a b ↦ ⟨[], rfl⟩

/-- A relaxed word is no longer than any way over one other value, with the relaxed word for the second half of the way
if that value is the smaller one. -/
theorem cost_relax_le (t : Table) (start between target : UInt8) :
    t.relax.cost start target ≤ t.cost start between +
      if between < start then t.relax.cost between target else t.cost between target := by
  obtain ⟨before, hrow, hrelaxed, hold⟩ := t.exists_relaxed_before start
  have hfirst : (before.row start).word between = t.word start between := by
    rw [hold start (UInt8.le_refl start), word]
  calc t.relax.cost start target
      = ((before.relaxedRow start).word target).size := by rw [cost, word, hrow]
    _ ≤ ((before.row start).word between).size + ((before.row between).word target).size :=
        Row.size_foldl_viaValue_le before.row (mem_allValues between) (before.row start) target
    _ = t.cost start between +
          if between < start then t.relax.cost between target else t.cost between target := by
        rw [hfirst]
        split
        · next hlt =>
          rw [hrelaxed between hlt]
          rfl
        · next hge =>
          rw [hold between (UInt8.not_lt.mp hge)]
          rfl

/-- Behind one relaxation each entry is the old one, or it is the word of a way over other values and strictly shorter.
It is no longer than any way over one other value, and over a smaller value it is no longer than the old word to that
value with the relaxed word from there. No entry gets longer. -/
theorem relaxed_entry_is_shorter_way (t : Table) (start target : UInt8) :
    (t.relax.word start target = t.word start target ∨
      (∃ path, path ≠ [] ∧ t.relax.word start target = t.along start path target) ∧
        t.relax.cost start target < t.cost start target) ∧
    (∀ between, t.relax.cost start target ≤ t.cost start between + t.cost between target) ∧
    (∀ between, between < start →
      t.relax.cost start target ≤ t.cost start between + t.relax.cost between target) ∧
    t.relax.cost start target ≤ t.cost start target := by
  have hshortens := t.shortensTo_relax start
  refine ⟨?_, ?_, ?_, hshortens.size_le target⟩
  · rcases hshortens target with heq | hlt
    · exact Or.inl heq
    · obtain ⟨path, hpath⟩ := t.exists_along_relax start target
      refine Or.inr ⟨⟨path, ?_, hpath⟩, hlt⟩
      rintro rfl
      -- The way over no other value is the old entry.
      exact absurd (congrArg Array.size hpath) (Nat.ne_of_lt hlt)
  · intro between
    have hle := t.cost_relax_le start between target
    split at hle
    · exact Nat.le_trans hle
        (Nat.add_le_add_left ((t.shortensTo_relax between).size_le target) _)
    · exact hle
  · intro between hlt
    have hle := t.cost_relax_le start between target
    rwa [if_pos hlt] at hle

/-- Where only the words from and to zero are short, a relaxation makes a long one shorter, and the new word is that of
a way over other values. -/
theorem relaxed_entry_over_zero :
    let t := ofFn fun start target ↦
      Array.replicate (if start = 0 ∨ target = 0 then 1 else 3) .increment
    (0 : UInt8) < 7 ∧ t.cost 7 9 = 3 ∧ t.relax.cost 7 9 ≤ 1 + t.relax.cost 0 9 ∧
      ∃ path, path ≠ [] ∧ t.relax.word 7 9 = t.along 7 path 9 := by
  intro t
  have hcost (start target : UInt8) :
      t.cost start target = if start = 0 ∨ target = 0 then 1 else 3 := by simp [t, cost]
  obtain ⟨hway, -, hsmaller, -⟩ := t.relaxed_entry_is_shorter_way 7 9
  obtain ⟨-, -, -, hzero⟩ := t.relaxed_entry_is_shorter_way 0 9
  have hover := hsmaller 0 (by decide)
  rw [hcost 7 0, if_pos (by decide)] at hover
  rw [hcost 0 9, if_pos (by decide)] at hzero
  have hlong : t.cost 7 9 = 3 := by rw [hcost, if_neg (by decide)]
  refine ⟨by decide, hlong, hover, ?_⟩
  rcases hway with hkept | ⟨hpath, -⟩
  · have : t.relax.cost 7 9 = t.cost 7 9 := congrArg Array.size hkept
    omega
  · exact hpath

end Table

end TapeLang.Transition
