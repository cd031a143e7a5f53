import TapeLang.Transition.Passes
import TapeLang.Proofs.Structured.Walk
import TapeLang.Proofs.Transition.LoopCount
import TapeLang.Proofs.Transition.Passes

/-!
# Words bring values

A word brings a cell from one value to another if its evaluation ends, from any
store with only zeros to the right of the cell, with the value in the current
cell and zeros everywhere else from the first cell on (`Brings`). Unary words
and multiply loops do so, and one such word behind another does. Hence every
table built by passes holds words that bring each value to each other one
(`sound_afterPasses`).
-/

namespace TapeLang

namespace Store

variable {s : Store} {a b : UInt8} {p q : Nat}

/-- The current cell has a value, and every cell to its right is zero. -/
structure Ready (s : Store) (a : UInt8) : Prop where
  cell_eq : s.cell = a
  right_eq : ∀ i, s.pointer < i → s.cells i = 0

/-- The store with a value in a cell at or right of the current one, and zeros in the other ones. -/
def place (s : Store) (q : Nat) (b : UInt8) : Store :=
  { s with
    pointer := q
    cells := fun i ↦ if i < s.pointer then s.cells i else if i = q then b else 0 }

/-- A write to a store that is ready places the value in the current cell. -/
theorem Ready.write_eq (h : s.Ready a) (b : UInt8) : s.write b = s.place s.pointer b := by
  refine Store.ext (funext fun i ↦ ?_) rfl rfl rfl
  show (if i = s.pointer then b else s.cells i) =
    if i < s.pointer then s.cells i else if i = s.pointer then b else 0
  by_cases heq : i = s.pointer
  · rw [if_pos heq, if_neg (by omega), if_pos heq]
  rw [if_neg heq]
  by_cases hlt : i < s.pointer
  · rw [if_pos hlt]
  · rw [if_neg hlt, if_neg heq]
    exact h.right_eq i (by omega)

/-- A placed value is ready. -/
theorem ready_place (h : s.pointer ≤ q) : (s.place q b).Ready b := by
  refine ⟨?_, ?_⟩
  · change (if q < s.pointer then s.cells q else if q = q then b else 0) = b
    rw [if_neg (Nat.not_lt.mpr h), if_pos rfl]
  · intro i hi
    change (if i < s.pointer then s.cells i else if i = q then b else 0) = 0
    have hi : q < i := hi
    rw [if_neg (by omega), if_neg (by omega)]

/-- Of two placings the second counts. -/
theorem place_place (hp : s.pointer ≤ p) (hq : p ≤ q) : (s.place p a).place q b = s.place q b := by
  refine Store.ext (funext fun i ↦ ?_) rfl rfl rfl
  show (if i < p then if i < s.pointer then s.cells i else if i = p then a else 0
    else if i = q then b else 0) = if i < s.pointer then s.cells i else if i = q then b else 0
  by_cases hip : i < p
  · rw [if_pos hip]
    split
    · rfl
    · rw [if_neg (by omega), if_neg (by omega)]
  · rw [if_neg hip, if_neg (show ¬ i < s.pointer by omega)]

end Store

namespace Transition

/-- A word takes the current cell from one value to another. It ends at or right of where it started, with zeros in
all other cells from there on, within 256 visits and one cell for each instruction. -/
def Brings (w : Word) (a b : UInt8) : Prop :=
  ∃ block : Block, block.code = w.toList ∧ ∀ input s, s.Ready a →
    ∃ q, s.pointer ≤ q ∧ q ≤ s.pointer + w.size ∧
      Walks input s.pointer (s.pointer + w.size) (.front block) (256 * w.size) s (s.place q b)

variable {a b e : UInt8} {w w' : Word} {input : List UInt8} {lo hi n : Nat} {s : Store}
  {direction : Direction}

/-- A word behind another brings the first value to the last. -/
theorem Brings.append (h : Brings w a e) (h' : Brings w' e b) : Brings (w ++ w') a b := by
  obtain ⟨block, hcode, hwalks⟩ := h
  obtain ⟨block', hcode', hwalks'⟩ := h'
  refine ⟨block.append block', ?_, ?_⟩
  · rw [Block.code_append, hcode, hcode', Array.toList_append]
  · intro input s hs
    obtain ⟨p, hp, hpw, hwalk⟩ := hwalks input s hs
    obtain ⟨q, hq, hqw, hwalk'⟩ := hwalks' input _ (Store.ready_place hp)
    have hq : p ≤ q := hq
    have hqw : q ≤ p + w'.size := hqw
    have hpointer : (s.place p e).pointer = p := rfl
    rw [Store.place_place hp hq, hpointer] at hwalk'
    rw [Array.size_append]
    refine ⟨q, Nat.le_trans hp hq, by omega, ?_⟩
    rw [Nat.mul_add]
    apply Walks.append
    · exact hwalk.mono (Nat.le_refl _) (by omega) (Nat.le_refl _)
    · exact hwalk'.mono hp (by omega) (Nat.le_refl _)

/-! ### Changes of the current cell -/

namespace Direction

/-- The instruction that changes a cell by one. -/
def basic : Direction → Basic
  | .down => .decrement
  | .up => .increment

def flip : Direction → Direction
  | .down => .up
  | .up => .down

theorem change_zero (direction : Direction) (value : UInt8) : direction.change 0 value = value := by
  cases direction with
  | down => exact UInt8.sub_zero value
  | up => exact UInt8.add_zero value

theorem change_change (direction : Direction) (a b value : UInt8) :
    direction.change b (direction.change a value) = direction.change (a + b) value := by
  cases direction with
  | down =>
    change value - a - b = value - (a + b)
    grind
  | up =>
    change value + a + b = value + (a + b)
    grind

end Direction

theorem apply_basic (input : List UInt8) (s : Store) (direction : Direction) :
    direction.basic.apply input s = s.write (direction.change 1 s.cell) := by
  cases direction <;> rfl

theorem basic_ne_right (direction : Direction) : direction.basic ≠ .right := by
  cases direction <;> exact Basic.noConfusion

/-- Changing a cell by one a number of times changes it by that number. -/
theorem walks_times (input : List UInt8) (hi n : Nat) (direction : Direction)
    (hlo : lo ≤ s.pointer) :
    Walks input lo hi (.front (.times direction.basic n)) n s
      (s.write (direction.change (UInt8.ofNat n) s.cell)) := by
  induction n generalizing s with
  | zero =>
    have hzero : direction.change (UInt8.ofNat 0) s.cell = s.cell := direction.change_zero s.cell
    rw [hzero, Store.write_cell]
    exact .done
  | succ n ih =>
    apply Walks.basic hlo (fun h ↦ absurd h (basic_ne_right direction))
    have hnext := ih (s := s.write (direction.change 1 s.cell)) hlo
    rw [Store.cell_write, Store.write_write, direction.change_change] at hnext
    rw [apply_basic, Nat.add_comm n, UInt8.ofNat_add]
    exact hnext

private theorem distance_spec (start target : UInt8) :
    ((start.toNat : Int) + distance start target - target.toNat) % 256 = 0 ∧
      -256 < distance start target ∧ distance start target < 256 := by
  have hstart := start.toNat_lt
  have htarget := target.toNat_lt
  unfold distance
  dsimp only
  split
  · omega
  split <;> omega

-- The unary word of two values covers the distance between them.
private theorem change_distance (start target : UInt8) :
    (if 0 ≤ distance start target then Direction.up else .down).change
      (UInt8.ofNat (distance start target).natAbs) start = target := by
  have hstart := start.toNat_lt
  have htarget := target.toNat_lt
  have hdistance := distance_spec start target
  generalize distance start target = d at hdistance
  rw [← UInt8.toNat_inj]
  split
  · show (start + UInt8.ofNat d.natAbs).toNat = target.toNat
    rw [UInt8.toNat_add, UInt8.toNat_ofNat']
    omega
  · show (start - UInt8.ofNat d.natAbs).toNat = target.toNat
    rw [UInt8.toNat_sub, UInt8.toNat_ofNat']
    omega

/-- A unary word brings its first value to its last. -/
theorem brings_unaryWord (start target : UInt8) : Brings (unaryWord start target) start target := by
  obtain ⟨direction, hdirection⟩ : ∃ direction,
      direction = if 0 ≤ distance start target then Direction.up else .down := ⟨_, rfl⟩
  obtain ⟨n, hn⟩ : ∃ n, n = (distance start target).natAbs := ⟨_, rfl⟩
  have hchange := change_distance start target
  have hword : unaryWord start target = Array.replicate n direction.basic.instruction := by
    rw [unaryWord, hn, hdirection]
    split <;> rfl
  rw [← hdirection, ← hn] at hchange
  refine ⟨.times direction.basic n, ?_, ?_⟩
  · rw [Block.code_times, hword, Array.toList_replicate]
  · intro input s hs
    rw [hword, Array.size_replicate]
    refine ⟨s.pointer, Nat.le_refl _, Nat.le_add_right _ _, ?_⟩
    rw [← hs.write_eq, ← hchange, ← hs.cell_eq]
    apply (walks_times input _ n direction (Nat.le_refl _)).mono (Nat.le_refl _) (Nat.le_refl _)
    omega

end Transition

/-! ### Multiply loops -/

namespace Store

/-- The store with values in the current cell and the next one. -/
def spread (s : Store) (v x : UInt8) : Store :=
  { s with
    cells := fun i ↦ if i = s.pointer then v else if i = s.pointer + 1 then x else s.cells i }

/-- The same, seen from the next cell. -/
def beside (s : Store) (v x : UInt8) : Store := { s.spread v x with pointer := s.pointer + 1 }

variable {s : Store} {a : UInt8}

theorem cell_spread (s : Store) (v x : UInt8) : (s.spread v x).cell = v := if_pos rfl

theorem cell_beside (s : Store) (v x : UInt8) : (s.beside v x).cell = x := by
  show (if s.pointer + 1 = s.pointer then v else if s.pointer + 1 = s.pointer + 1 then x
    else s.cells (s.pointer + 1)) = x
  rw [if_neg (Nat.succ_ne_self _), if_pos rfl]

theorem write_spread (s : Store) (v x w : UInt8) : (s.spread v x).write w = s.spread w x := by
  refine Store.ext (funext fun i ↦ ?_) rfl rfl rfl
  show (if i = s.pointer then w else if i = s.pointer then v else if i = s.pointer + 1 then x
    else s.cells i) = if i = s.pointer then w else if i = s.pointer + 1 then x else s.cells i
  split <;> rfl

theorem write_beside (s : Store) (v x y : UInt8) : (s.beside v x).write y = s.beside v y := by
  refine Store.ext (funext fun i ↦ ?_) rfl rfl rfl
  show (if i = s.pointer + 1 then y else if i = s.pointer then v
    else if i = s.pointer + 1 then x else s.cells i) =
    if i = s.pointer then v else if i = s.pointer + 1 then y else s.cells i
  by_cases hi : i = s.pointer + 1
  · rw [if_pos hi, if_neg (by omega), if_pos hi]
  · rw [if_neg hi, if_neg hi, if_neg hi]

/-- A store that is ready has a zero in the next cell. -/
theorem Ready.spread_eq (h : s.Ready a) : s.spread a 0 = s := by
  refine Store.ext (funext fun i ↦ ?_) rfl rfl rfl
  show (if i = s.pointer then a else if i = s.pointer + 1 then 0 else s.cells i) = s.cells i
  by_cases heq : i = s.pointer
  · rw [if_pos heq, heq]
    exact h.cell_eq.symm
  rw [if_neg heq]
  split
  · exact (h.right_eq i (by omega)).symm
  · rfl

/-- With a zero left behind, the value of the next cell is placed there. -/
theorem Ready.beside_eq (h : s.Ready a) (x : UInt8) :
    s.beside 0 x = s.place (s.pointer + 1) x := by
  refine Store.ext (funext fun i ↦ ?_) rfl rfl rfl
  show (if i = s.pointer then 0 else if i = s.pointer + 1 then x else s.cells i) =
    if i < s.pointer then s.cells i else if i = s.pointer + 1 then x else 0
  by_cases hlt : i < s.pointer
  · rw [if_pos hlt, if_neg (by omega), if_neg (by omega)]
  rw [if_neg hlt]
  by_cases heq : i = s.pointer
  · rw [if_pos heq, if_neg (by omega)]
  rw [if_neg heq]
  split
  · rfl
  · exact h.right_eq i (by omega)

end Store

namespace Transition

variable {a b : UInt8} {input : List UInt8} {n : Nat} {s : Store} {v x : UInt8}

namespace MultiplyLoop

/-- One round of the loop. -/
def body (l : MultiplyLoop) : Block :=
  (Block.times l.direction.basic l.outer).append
    (.basic .right ((Block.times l.direction.flip.basic l.inner).append (.basic .left .done)))

/-- The loop and the step to the next cell. -/
def block (l : MultiplyLoop) : Block := .loop l.body (.basic .right .done)

theorem code_block (l : MultiplyLoop) : l.block.code = l.word.toList := by
  obtain ⟨direction, outer, inner⟩ := l
  cases direction <;>
    simp [block, body, word, Block.code, Block.code_times, Direction.basic, Direction.flip,
      Basic.instruction]

/-- The value of the next cell behind a number of rounds. -/
theorem landing_eq (l : MultiplyLoop) (rounds : Nat) :
    l.landing rounds = l.direction.flip.change (UInt8.ofNat (l.inner * rounds)) 0 := by
  obtain ⟨direction, outer, inner⟩ := l
  cases direction with
  | down => exact (UInt8.zero_add _).symm
  | up => rfl

private theorem walks_right (input : List UInt8) (s : Store) (v x : UInt8) :
    Walks input s.pointer (s.pointer + 1) (.front (.basic .right .done)) 1 (s.spread v x)
      (s.beside v x) :=
  .basic (Nat.le_refl _) (fun _ ↦ Nat.le_refl _) .done

/-- A round changes the two cells in opposite directions. -/
theorem walks_body (l : MultiplyLoop) (input : List UInt8) (s : Store) (v x : UInt8) :
    Walks input s.pointer (s.pointer + 1) (.front l.body) (l.outer + l.inner + 2) (s.spread v x)
      (s.spread (l.direction.change (UInt8.ofNat l.outer) v)
        (l.direction.flip.change (UInt8.ofNat l.inner) x)) := by
  have hown : Walks input s.pointer (s.pointer + 1) (.front (.times l.direction.basic l.outer))
      l.outer (s.spread v x) (s.spread (l.direction.change (UInt8.ofNat l.outer) v) x) := by
    have hwalk := walks_times (s := s.spread v x) input (s.pointer + 1) l.outer l.direction
      (Nat.le_refl s.pointer)
    rw [Store.cell_spread, Store.write_spread] at hwalk
    exact hwalk
  generalize l.direction.change (UInt8.ofNat l.outer) v = v' at hown ⊢
  have hnext : Walks input s.pointer (s.pointer + 1) (.front (.times l.direction.flip.basic l.inner))
      l.inner (s.beside v' x) (s.beside v' (l.direction.flip.change (UInt8.ofNat l.inner) x)) := by
    have hwalk := walks_times (s := s.beside v' x) input (s.pointer + 1) l.inner l.direction.flip
      (Nat.le_succ s.pointer)
    rw [Store.cell_beside, Store.write_beside] at hwalk
    exact hwalk
  have hback : Walks input s.pointer (s.pointer + 1) (.front (.basic .left .done)) 1
      (s.beside v' (l.direction.flip.change (UInt8.ofNat l.inner) x))
      (s.spread v' (l.direction.flip.change (UInt8.ofNat l.inner) x)) :=
    .basic (Nat.le_succ s.pointer) Basic.noConfusion .done
  apply (hown.append (.basic (Nat.le_refl _) (fun _ ↦ Nat.le_refl _) (hnext.append hback))).mono
    (Nat.le_refl _) (Nat.le_refl _)
  omega

-- From inside the loop: the value that the next cell gets grows with every round that is left.
private theorem walks_rounds (l : MultiplyLoop) (input : List UInt8) (s : Store)
    (h : Drains (l.direction.change (UInt8.ofNat l.outer)) n
      (l.direction.change (UInt8.ofNat l.outer) v)) :
    Walks input s.pointer (s.pointer + 1) (.inside l.body (.basic .right .done))
      ((n + 1) * (l.outer + l.inner + 3) + 1) (s.spread v x)
      (s.beside 0 (l.direction.flip.change (UInt8.ofNat (l.inner * (n + 1))) x)) := by
  have round := l.walks_body input s v x
  induction n generalizing v x with
  | zero =>
    have hzero : l.direction.change (UInt8.ofNat l.outer) v = 0 := h
    rw [hzero] at round
    rw [Nat.zero_add, Nat.mul_one, Nat.one_mul]
    apply (Walks.leave (Nat.le_refl _) round (Store.cell_spread _ _ _)
      (walks_right input s _ _)).mono (Nat.le_refl _) (Nat.le_refl _)
    omega
  | succ n ih =>
    obtain ⟨hne, hdrains⟩ := h
    have next := ih hdrains (l.walks_body input s _ (l.direction.flip.change (UInt8.ofNat l.inner) x))
    rw [Direction.change_change, ← UInt8.ofNat_add, Nat.add_comm l.inner, ← Nat.mul_succ] at next
    have nonzero : (s.spread (l.direction.change (UInt8.ofNat l.outer) v)
        (l.direction.flip.change (UInt8.ofNat l.inner) x)).cell ≠ 0 := by
      rwa [Store.cell_spread]
    apply (Walks.again (Nat.le_refl _) round nonzero next).mono (Nat.le_refl _) (Nat.le_refl _)
    rw [Nat.succ_mul (n + 1)]
    omega

/-- The loop leaves a zero behind and steps to the value it lands on. -/
theorem walks_block (l : MultiplyLoop) (input : List UInt8) (s : Store)
    (h : Drains (l.direction.change (UInt8.ofNat l.outer)) n v) :
    Walks input s.pointer (s.pointer + 1) (.front l.block) (n * (l.outer + l.inner + 3) + 2)
      (s.spread v 0) (s.beside 0 (l.landing n)) := by
  rw [l.landing_eq]
  cases n with
  | zero =>
    have hzero : v = 0 := h
    have hnothing : l.direction.flip.change (UInt8.ofNat (l.inner * 0)) 0 = 0 :=
      l.direction.flip.change_zero 0
    rw [hnothing, hzero, Nat.zero_mul]
    exact .skip (Nat.le_refl _) (Store.cell_spread _ _ _) (walks_right input s 0 0)
  | succ n =>
    obtain ⟨hne, hdrains⟩ := h
    apply Walks.enter (Nat.le_refl _)
    · rwa [Store.cell_spread]
    · exact l.walks_rounds input s hdrains

end MultiplyLoop

/-- A multiply loop that ends brings its first value to the one it lands on. -/
theorem brings_multiplyLoop {l : MultiplyLoop} {start : UInt8}
    (h : roundsToZero start (UInt8.ofNat l.outer) l.direction = some n) :
    Brings l.word start (l.landing n) := by
  obtain ⟨hn, hdrains⟩ := drains_of_roundsToZero h
  refine ⟨l.block, l.code_block, ?_⟩
  intro input s hs
  rw [l.size_word, MultiplyLoop.size]
  refine ⟨s.pointer + 1, Nat.le_succ _, by omega, ?_⟩
  have hwalk := l.walks_block input s hdrains
  rw [hs.spread_eq, hs.beside_eq] at hwalk
  apply hwalk.mono (Nat.le_refl _) (by omega)
  have hrounds := Nat.mul_le_mul_right (l.outer + l.inner + 3) hn
  omega

/-! ### Tables -/

def Row.Sound (r : Row) (start : UInt8) : Prop := ∀ target, Brings (r.word target) start target

def Table.Sound (t : Table) : Prop := ∀ start, (t.row start).Sound start

/-- A loop is listed with the value it lands on. -/
theorem brings_of_mem_landings {start : UInt8} {candidate : MultiplyLoop × UInt8}
    (h : candidate ∈ landings start) : Brings candidate.1.word start candidate.2 := by
  simp only [landings, List.mem_flatMap, List.mem_append, Option.mem_toList, Option.map_eq_some_iff]
    at h
  obtain ⟨outer, -, inner, -, ⟨n, hn, rfl⟩ | ⟨n, hn, rfl⟩⟩ := h
  · exact brings_multiplyLoop hn
  · exact brings_multiplyLoop hn

/-- The tables built by passes are sound. -/
theorem sound_afterPasses (n : Nat) : (Table.afterPasses n).Sound :=
  afterPasses_induction brings_unaryWord (fun _ _ ↦ brings_of_mem_landings) Brings.append n

end Transition

end TapeLang
