import TapeLang.Proofs.Structured.Block

/-!
# Evaluation of blocks

The meaning of a block without positions, stacks or limits. An evaluation is the
list of instructions visited, each with the store it was visited in, and the
store at the end unless the evaluation was cut off: one visit for each basic
instruction, for each time a loop is reached and for each time its end is
reached. Evaluation leaves no choice (`Evaluates.comparable`) and always goes on
(`proceeds`), so the evaluations of a block are the beginnings of one
sequence of visits.
-/

namespace TapeLang

/-- What instructions read and change. -/
@[ext] structure Store where
  /-- The value of every cell. -/
  cells : Nat → UInt8 := fun _ ↦ 0
  pointer : Nat := 0
  printed : List UInt8 := []
  inputPosition : Nat := 0

namespace Store

def cell (s : Store) : UInt8 := s.cells s.pointer

def output (s : Store) : List UInt8 := s.printed.reverse

def write (s : Store) (value : UInt8) : Store :=
  { s with cells := fun i ↦ if i = s.pointer then value else s.cells i }

/-- A written value is found in its cell. -/
@[simp] theorem cell_write (s : Store) (value : UInt8) : (s.write value).cell = value :=
  if_pos rfl

/-- Of two writes to a cell the second counts. -/
theorem write_write (s : Store) (a b : UInt8) : (s.write a).write b = s.write b := by
  refine Store.ext (funext fun i ↦ ?_) rfl rfl rfl
  show (if i = s.pointer then b else if i = s.pointer then a else s.cells i) =
    if i = s.pointer then b else s.cells i
  split <;> rfl

/-- Writing the value that is there changes nothing. -/
theorem write_cell (s : Store) : s.write s.cell = s := by
  refine Store.ext (funext fun i ↦ ?_) rfl rfl rfl
  show (if i = s.pointer then s.cell else s.cells i) = s.cells i
  split
  · next heq =>
    rw [heq]
    rfl
  · rfl

/-- Write the next byte of the input; past its end a zero is read. -/
def read (s : Store) (input : List UInt8) : Store :=
  match input[s.inputPosition]? with
  | some value => { s.write value with inputPosition := s.inputPosition + 1 }
  | none => s.write 0

end Store

/-- The effect of a basic instruction. -/
def Basic.apply (bytes : List UInt8) (s : Store) : Basic → Store
  | .increment => s.write (s.cell + 1)
  | .decrement => s.write (s.cell - 1)
  | .left => { s with pointer := s.pointer - 1 }
  | .right => { s with pointer := s.pointer + 1 }
  | .output => { s with printed := s.cell :: s.printed }
  | .input => s.read bytes

/-- An instruction that is reached, and the store it is reached with. -/
structure Visit where
  instruction : Instruction
  store : Store

/-- A move to the right that leaves the first `room` cells. -/
def Visit.Leaves (v : Visit) (room : Nat) : Prop :=
  v.instruction = .right ∧ room ≤ v.store.pointer + 1

instance (v : Visit) (room : Nat) : Decidable (v.Leaves room) :=
  inferInstanceAs (Decidable (_ ∧ _))

/-- A place in a block. -/
inductive Control where
  | front (b : Block)
  /-- In front of the body of a loop that is under way, and of what follows the loop. -/
  | inside (body rest : Block)

/-- The visits of an evaluation and the store it ends with. Without a store it was cut off. -/
inductive Evaluates (input : List UInt8) : Control → Store → List Visit → Option Store → Prop
  /-- An evaluation may be cut off anywhere. -/
  | cut {c : Control} {s : Store} : Evaluates input c s [] none
  | done {s : Store} : Evaluates input (.front .done) s [] (some s)
  | basic {a : Basic} {rest : Block} {s : Store} {vs : List Visit} {r : Option Store}
      (next : Evaluates input (.front rest) (a.apply input s) vs r) :
    Evaluates input (.front (.basic a rest)) s (⟨a.instruction, s⟩ :: vs) r
  | skip {body rest : Block} {s : Store} {vs : List Visit} {r : Option Store}
      (zero : s.cell = 0) (next : Evaluates input (.front rest) s vs r) :
    Evaluates input (.front (.loop body rest)) s (⟨.loopStart, s⟩ :: vs) r
  | enter {body rest : Block} {s : Store} {vs : List Visit} {r : Option Store}
      (nonzero : s.cell ≠ 0) (next : Evaluates input (.inside body rest) s vs r) :
    Evaluates input (.front (.loop body rest)) s (⟨.loopStart, s⟩ :: vs) r
  /-- The evaluation is cut off in the body of the loop. -/
  | within {body rest : Block} {s : Store} {vs : List Visit}
      (round : Evaluates input (.front body) s vs none) :
    Evaluates input (.inside body rest) s vs none
  | again {body rest : Block} {s s' : Store} {vs ws : List Visit} {r : Option Store}
      (round : Evaluates input (.front body) s vs (some s')) (nonzero : s'.cell ≠ 0)
      (next : Evaluates input (.inside body rest) s' ws r) :
    Evaluates input (.inside body rest) s (vs ++ ⟨.loopEnd, s'⟩ :: ws) r
  | leave {body rest : Block} {s s' : Store} {vs ws : List Visit} {r : Option Store}
      (round : Evaluates input (.front body) s vs (some s')) (zero : s'.cell = 0)
      (next : Evaluates input (.front rest) s' ws r) :
    Evaluates input (.inside body rest) s (vs ++ ⟨.loopEnd, s'⟩ :: ws) r

variable {input : List UInt8} {c : Control} {s s' : Store} {vs ws : List Visit}
  {r r' : Option Store}

/-! ### Evaluation leaves no choice -/

/-- The first evaluation is the second or cut off on the way of it. -/
def Begins (vs : List Visit) (r : Option Store) (ws : List Visit) (r' : Option Store) : Prop :=
  (vs = ws ∧ r = r') ∨ (r = none ∧ vs <+: ws)

private theorem Begins.append (h : Begins vs r ws r') (us : List Visit) :
    Begins (us ++ vs) r (us ++ ws) r' := by
  rcases h with ⟨rfl, rfl⟩ | ⟨rfl, hfront⟩
  · exact Or.inl ⟨rfl, rfl⟩
  · exact Or.inr ⟨rfl, List.prefix_append_right_inj us |>.mpr hfront⟩

private theorem Begins.or_append (us : List Visit)
    (h : Begins vs r ws r' ∨ Begins ws r' vs r) :
    Begins (us ++ vs) r (us ++ ws) r' ∨ Begins (us ++ ws) r' (us ++ vs) r :=
  h.imp (·.append us) (·.append us)

-- An evaluation cut off inside a round begins every evaluation that finishes the round.
private theorem Begins.of_round {vs ws us : List Visit}
    (h : Begins vs none ws (some s) ∨ Begins ws (some s) vs none) :
    Begins vs none (ws ++ us) r := by
  rcases h with (⟨-, h⟩ | ⟨-, h⟩) | ⟨-, h⟩ | ⟨h, -⟩
  · contradiction
  · exact Or.inr ⟨rfl, h.trans (List.prefix_append ws us)⟩
  · contradiction
  · contradiction

private theorem Begins.eq_of_some {vs ws : List Visit}
    (h : Begins vs (some s) ws (some s') ∨ Begins ws (some s') vs (some s)) : vs = ws ∧ s = s' := by
  rcases h with (⟨hvisits, hstore⟩ | ⟨h, -⟩) | ⟨hvisits, hstore⟩ | ⟨h, -⟩
  · exact ⟨hvisits, Option.some.inj hstore⟩
  · contradiction
  · exact ⟨hvisits.symm, (Option.some.inj hstore).symm⟩
  · contradiction

/-- Of two evaluations from the same place one begins the other. -/
theorem Evaluates.comparable (h : Evaluates input c s vs r) (h' : Evaluates input c s ws r') :
    Begins vs r ws r' ∨ Begins ws r' vs r := by
  have cut_begins {us : List Visit} {q : Option Store} : Begins [] none us q :=
    Or.inr ⟨rfl, List.nil_prefix⟩
  induction h generalizing ws r' with
  | cut => exact Or.inl cut_begins
  | done =>
    cases h' with
    | cut => exact Or.inr cut_begins
    | done => exact Or.inl (Or.inl ⟨rfl, rfl⟩)
  | basic next ih =>
    cases h' with
    | cut => exact Or.inr cut_begins
    | basic next' => exact Begins.or_append [_] (ih next')
  | skip zero next ih =>
    cases h' with
    | cut => exact Or.inr cut_begins
    | skip _ next' => exact Begins.or_append [_] (ih next')
    | enter nonzero => exact False.elim (nonzero zero)
  | enter nonzero next ih =>
    cases h' with
    | cut => exact Or.inr cut_begins
    | skip zero => exact False.elim (nonzero zero)
    | enter _ next' => exact Begins.or_append [_] (ih next')
  | within round ih =>
    cases h' with
    | cut => exact Or.inr cut_begins
    | within round' => exact ih round'
    | again round' => exact Or.inl (Begins.of_round (ih round'))
    | leave round' => exact Or.inl (Begins.of_round (ih round'))
  | again round nonzero next ihround ih =>
    cases h' with
    | cut => exact Or.inr cut_begins
    | within round' => exact Or.inr (Begins.of_round (ihround round').symm)
    | again round' _ next' =>
      obtain ⟨rfl, rfl⟩ := Begins.eq_of_some (ihround round')
      exact Begins.or_append _ (Begins.or_append [_] (ih next'))
    | leave round' zero =>
      obtain ⟨rfl, rfl⟩ := Begins.eq_of_some (ihround round')
      exact False.elim (nonzero zero)
  | leave round zero next ihround ih =>
    cases h' with
    | cut => exact Or.inr cut_begins
    | within round' => exact Or.inr (Begins.of_round (ihround round').symm)
    | again round' nonzero =>
      obtain ⟨rfl, rfl⟩ := Begins.eq_of_some (ihround round')
      exact False.elim (nonzero zero)
    | leave round' _ next' =>
      obtain ⟨rfl, rfl⟩ := Begins.eq_of_some (ihround round')
      exact Begins.or_append _ (Begins.or_append [_] (ih next'))

/-- Complete evaluations from the same place are the same. -/
theorem Evaluates.unique (h : Evaluates input c s vs (some s')) {t : Store}
    (h' : Evaluates input c s ws (some t)) : vs = ws ∧ s' = t :=
  Begins.eq_of_some (h.comparable h')

/-! ### Beginnings of evaluations -/

private theorem prefix_append_cons {us : List Visit} {v : Visit} (h : ws <+: us ++ v :: vs) :
    ws <+: us ∨ ∃ ts, ws = us ++ v :: ts ∧ ts <+: vs := by
  rcases List.prefix_or_prefix_of_prefix h (List.prefix_append us (v :: vs)) with hle | ⟨ts, rfl⟩
  · exact Or.inl hle
  · rcases List.prefix_cons_iff.mp ((List.prefix_append_right_inj us).mp h) with rfl | ⟨ts, rfl, hts⟩
    · rw [List.append_nil]
      exact Or.inl (List.prefix_refl us)
    · exact Or.inr ⟨ts, rfl, hts⟩

/-- An evaluation may be cut off behind any of its visits. -/
theorem Evaluates.cut_off (h : Evaluates input c s vs r) (hws : ws <+: vs) :
    Evaluates input c s ws none := by
  induction h generalizing ws with
  | cut | done =>
    rw [List.prefix_nil.mp hws]
    exact .cut
  | basic next ih =>
    rcases List.prefix_cons_iff.mp hws with rfl | ⟨ts, rfl, hts⟩
    · exact .cut
    · exact .basic (ih hts)
  | skip zero next ih =>
    rcases List.prefix_cons_iff.mp hws with rfl | ⟨ts, rfl, hts⟩
    · exact .cut
    · exact .skip zero (ih hts)
  | enter nonzero next ih =>
    rcases List.prefix_cons_iff.mp hws with rfl | ⟨ts, rfl, hts⟩
    · exact .cut
    · exact .enter nonzero (ih hts)
  | within round ih => exact .within (ih hws)
  | again round nonzero next ihround ih =>
    rcases prefix_append_cons hws with hround | ⟨ts, rfl, hts⟩
    · exact .within (ihround hround)
    · exact .again round nonzero (ih hts)
  | leave round zero next ihround ih =>
    rcases prefix_append_cons hws with hround | ⟨ts, rfl, hts⟩
    · exact .within (ihround hround)
    · exact .leave round zero (ih hts)

/-- An evaluation can be brought to its end within fewer than `n` visits, or has an `n`th one. -/
def Proceeds (input : List UInt8) (n : Nat) (c : Control) (s : Store) : Prop :=
  (∃ vs s', Evaluates input c s vs (some s') ∧ vs.length < n) ∨
    ∃ vs, Evaluates input c s vs none ∧ vs.length = n

private theorem Proceeds.visit {n : Nat} {c d : Control} {s s' : Store} (us : List Visit)
    (h : Proceeds input n c s)
    (hvisit : ∀ vs r, Evaluates input c s vs r → Evaluates input d s' (us ++ vs) r) :
    Proceeds input (us.length + n) d s' := by
  rcases h with ⟨vs, t, h, hlength⟩ | ⟨vs, h, hlength⟩
  · refine Or.inl ⟨us ++ vs, t, hvisit vs _ h, ?_⟩
    rw [List.length_append]
    omega
  · refine Or.inr ⟨us ++ vs, hvisit vs _ h, ?_⟩
    rw [List.length_append, hlength]

private theorem proceeds_front {n : Nat} (ih : ∀ m < n, ∀ c s, Proceeds input m c s) (b : Block)
    (s : Store) : Proceeds input n (.front b) s := by
  cases n with
  | zero => exact Or.inr ⟨[], .cut, rfl⟩
  | succ n =>
    rw [Nat.add_comm]
    have ih := ih n (Nat.lt_succ_self n)
    cases b with
    | done => exact Or.inl ⟨[], s, .done, Nat.lt_add_right n Nat.one_pos⟩
    | basic a rest => exact (ih _ _).visit [_] fun _ _ next ↦ .basic next
    | loop body rest =>
      by_cases zero : s.cell = 0
      · exact (ih _ _).visit [_] fun _ _ next ↦ .skip zero next
      · exact (ih _ _).visit [_] fun _ _ next ↦ .enter zero next

/-- Evaluation never gets stuck. -/
theorem proceeds (input : List UInt8) (n : Nat) (c : Control) (s : Store) :
    Proceeds input n c s := by
  induction n using Nat.strongRecOn generalizing c s with
  | ind n ih =>
    cases c with
    | front b => exact proceeds_front ih b s
    | inside body rest =>
      -- The first round has as many visits to make as the whole; what follows it has fewer.
      rcases proceeds_front ih body s with ⟨vs, s', round, hlength⟩ | ⟨vs, round, hlength⟩
      · obtain ⟨m, rfl⟩ : ∃ m, n = vs.length + (1 + m) := ⟨n - vs.length - 1, by omega⟩
        have ih := ih m (by omega)
        have hround : vs.length + (1 + m) = (vs ++ [Visit.mk .loopEnd s']).length + m := by
          rw [List.length_append, Nat.add_assoc]
          rfl
        rw [hround]
        by_cases zero : s'.cell = 0
        · refine (ih (.front rest) s').visit _ fun ws r next ↦ ?_
          rw [List.append_assoc]
          exact .leave round zero next
        · refine (ih (.inside body rest) s').visit _ fun ws r next ↦ ?_
          rw [List.append_assoc]
          exact .again round zero next
      · exact Or.inr ⟨vs, .within round, hlength⟩

/-! ### One block behind another -/

/-- The same place with another block behind it. -/
def Control.append : Control → Block → Control
  | .front b, d => .front (b.append d)
  | .inside body rest, d => .inside body (rest.append d)

/-- A complete evaluation is followed by an evaluation of the block behind it. -/
theorem Evaluates.append {d : Block} (h : Evaluates input c s vs (some s'))
    (hd : Evaluates input (.front d) s' ws r) :
    Evaluates input (c.append d) s (vs ++ ws) r := by
  generalize hend : some s' = q at h
  induction h with
  | cut | within => contradiction
  | done =>
    obtain rfl := Option.some.inj hend
    exact hd
  | basic next ih => exact .basic (ih hend)
  | skip zero next ih => exact .skip zero (ih hend)
  | enter nonzero next ih => exact .enter nonzero (ih hend)
  | again round nonzero next _ ih =>
    rw [List.append_assoc]
    exact .again round nonzero (ih hend)
  | leave round zero next _ ih =>
    rw [List.append_assoc]
    exact .leave round zero (ih hend)

end TapeLang
