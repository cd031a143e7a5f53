import TapeLang.Proofs.Structured.Evaluation
import TapeLang.Proofs.Machine.LoopStack

/-!
# Machines evaluate blocks

A machine in front of the code of a block makes the visits of every evaluation
of the block, as long as its instructions are executed (`Evaluates.passes`). The
loop stack and the table of partners lead to the brackets of the block because
the code of a block closes every bracket that it opens (`openAt_of_spells`).
-/

namespace TapeLang

namespace Program

variable {p : Program} {n : Nat} {c d : List Instruction}

/-- The program holds a sequence of instructions from a position on. -/
def Spells (p : Program) : Nat → List Instruction → Prop
  | _, [] => True
  | n, i :: rest => p.get? n = some i ∧ p.Spells (n + 1) rest

theorem spells_append :
    p.Spells n (c ++ d) ↔ p.Spells n c ∧ p.Spells (n + c.length) d := by
  induction c generalizing n with
  | nil => exact ⟨fun h ↦ ⟨trivial, h⟩, fun h ↦ h.2⟩
  | cons i c ih =>
    rw [List.cons_append, Spells, Spells, ih, List.length_cons, and_assoc, Nat.add_right_comm,
      ← Nat.add_assoc]

private theorem spells_drop (h : d.length = n) (hp : p.toList = d ++ c) : p.Spells n c := by
  induction c generalizing d n with
  | nil => trivial
  | cons i c ih =>
    refine ⟨?_, ?_⟩
    · rw [get?_eq_toList, hp, ← h, List.getElem?_append_right (Nat.le_refl _), Nat.sub_self]
      rfl
    · refine ih (d := d ++ [i]) ?_ ?_
      · rw [List.length_append, h]
        rfl
      · rw [hp, List.append_assoc]
        rfl

/-- A program holds its own instructions from the start on. -/
theorem spells_toList (p : Program) : p.Spells 0 p.toList :=
  spells_drop (d := []) rfl rfl

/-- Behind the code of a block the same brackets are open as in front of it. -/
theorem openAt_of_spells {b : Block} (h : p.Spells n b.code) :
    p.openAt (n + b.code.length) = p.openAt n := by
  induction b generalizing n with
  | done => rfl
  | basic a rest ih =>
    obtain ⟨hget, hrest⟩ := h
    rw [Block.code, List.length_cons, ← Nat.add_assoc, Nat.add_right_comm, ih hrest]
    exact openAt_succ_of_ne hget a.instruction_ne_loopStart a.instruction_ne_loopEnd
  | loop body rest ihbody ih =>
    obtain ⟨hstart, hinner⟩ := h
    obtain ⟨hbody, hend, hrest⟩ := spells_append.mp hinner
    have hinside := ihbody hbody
    have hlength : n + (Block.loop body rest).code.length =
        n + 1 + body.code.length + 1 + rest.code.length := by
      simp only [Block.code, List.length_cons, List.length_append]
      omega
    rw [hlength, ih hrest, openAt_succ_loopEnd hend, hinside, openAt_succ_loopStart hstart]
    rfl

/-- The brackets around the code of a block are a pair. -/
theorem pair_of_spells {b : Block} (hstart : p.get? n = some .loopStart)
    (h : p.Spells (n + 1) (b.code ++ .loopEnd :: c)) : p.Pair n (n + 1 + b.code.length) := by
  obtain ⟨hbody, hend, -⟩ := spells_append.mp h
  refine ⟨hend, p.openAt n, ?_⟩
  rw [openAt_of_spells hbody, openAt_succ_loopStart hstart]

end Program

namespace Machine

variable {p : Program} {l : Limits} {m m' e : Machine} {n n' : Nat} {s s' : Store} {a : Basic}
  {vs ws : List Visit} {post post' : Machine → Prop}

/-! ### Machines and stores -/

/-- The machine has the cells, the pointer, the output and the input position of a store. -/
structure Shows (m : Machine) (s : Store) : Prop where
  get_eq : ∀ i, m.tape.get i = s.cells i
  pointer_eq : m.pointer = s.pointer
  printed_eq : m.printed = s.printed
  inputPosition_eq : m.inputPosition = s.inputPosition

theorem Shows.cell_eq (h : m.Shows s) : m.cell = s.cell := by
  rw [cell, Store.cell, h.get_eq, h.pointer_eq]

/-- Other registers do not show. -/
theorem Shows.congr (h : m.Shows s) (htape : m'.tape = m.tape) (hpointer : m'.pointer = m.pointer)
    (hprinted : m'.printed = m.printed) (hinput : m'.inputPosition = m.inputPosition) :
    m'.Shows s :=
  ⟨htape ▸ h.get_eq, hpointer.trans h.pointer_eq, hprinted.trans h.printed_eq,
    hinput.trans h.inputPosition_eq⟩

/-- A write to the machine is a write to the store. -/
theorem Shows.writeCell (h : m.Shows s) (value : UInt8) : (m.writeCell value).Shows (s.write value) := by
  refine ⟨?_, h.pointer_eq, h.printed_eq, h.inputPosition_eq⟩
  intro i
  change (m.tape.set m.pointer value).get i = if i = s.pointer then value else s.cells i
  rw [Tape.get_set, h.pointer_eq, h.get_eq]

/-- Allocation does not show. -/
theorem Shows.touchCell (h : m.Shows s) : m.touchCell.Shows s := by
  refine ⟨?_, h.pointer_eq, h.printed_eq, h.inputPosition_eq⟩
  intro i
  rw [← h.get_eq]
  exact Tape.get_allocate _ _ _

theorem input_eq (m : Machine) : m.image.input = m.limits.inputBytes.toArray := m.image.input_eq

private theorem Shows.read (h : m.Shows s) :
    (m.readInput.2.writeCell m.readInput.1).Shows (s.read m.limits.inputBytes) := by
  have hget : m.image.input[m.inputPosition]? = m.limits.inputBytes[s.inputPosition]? := by
    rw [input_eq, List.getElem?_toArray, h.inputPosition_eq]
  unfold readInput Store.read
  rw [hget]
  cases m.limits.inputBytes[s.inputPosition]? with
  | none => exact h.writeCell 0
  | some value =>
    refine ⟨(h.writeCell value).get_eq, h.pointer_eq, h.printed_eq, ?_⟩
    exact congrArg (· + 1) h.inputPosition_eq

/-- A basic instruction has the same effect on the machine and on the store. -/
theorem Shows.performs (h : m.Shows s) (effect : m.Performs none a.instruction e) :
    e.Shows (a.apply m.limits.inputBytes s) := by
  cases a with
  | increment =>
    cases effect
    rw [h.cell_eq]
    exact h.writeCell _
  | decrement =>
    cases effect
    rw [h.cell_eq]
    exact h.writeCell _
  | left =>
    cases effect
    exact ⟨h.get_eq, congrArg (· - 1) h.pointer_eq, h.printed_eq, h.inputPosition_eq⟩
  | right =>
    cases effect
    exact ⟨h.get_eq, congrArg (· + 1) h.pointer_eq, h.printed_eq, h.inputPosition_eq⟩
  | output =>
    cases effect
    refine ⟨h.touchCell.get_eq, h.pointer_eq, ?_, h.inputPosition_eq⟩
    change m.cell :: m.printed = s.cell :: s.printed
    rw [h.cell_eq, h.printed_eq]
  | input =>
    cases effect with
    | provided given => contradiction
    | read => exact h.read

/-- A basic instruction leaves the position and the loop stack to `moveOn`. -/
theorem Performs.pc_eq (effect : m.Performs none a.instruction e) : e.pc = m.pc := by
  cases a with
  | input =>
    cases effect with
    | provided given => contradiction
    | read =>
      unfold readInput
      split <;> rfl
  | _ =>
    cases effect
    rfl

/-! ### Machines at a position -/

/-- The machine executes a program under limits, stands at a position of it and shows a store. -/
structure At (p : Program) (l : Limits) (n : Nat) (s : Store) (m : Machine) : Prop where
  program_eq : m.program = p
  limits_eq : m.limits = l
  pc_eq : m.pc = n
  sound : m.StackSound
  shows : m.Shows s

/-- An executed instruction leads to the position and the store that it leads to. -/
theorem At.performs (h : At p l n s m) {i : Instruction} (current : m.current? = some i)
    (effect : m.Performs none i e) (hpc : e.pc + 1 = n') (hshows : e.Shows s') :
    At p l n' s' e.moveOn := by
  exact ⟨(congrArg Image.program effect.image_eq).trans h.program_eq,
    (congrArg Image.limits effect.image_eq).trans h.limits_eq, hpc, h.sound.performs current effect,
    hshows.congr rfl rfl rfl rfl⟩

theorem At.current?_eq (h : At p l n s m) : m.current? = p.get? n := by
  rw [current?, h.program_eq, h.pc_eq]

/-- A loop is skipped if the current cell is zero. -/
theorem At.skip {stop : Nat} (h : At p l n s m) (hpair : p.Pair n stop) (zero : s.cell = 0)
    (effect : m.Performs none .loopStart e) : At p l (stop + 1) s e.moveOn := by
  have current := h.current?_eq.trans hpair.get?_start
  refine h.performs current effect ?_ ?_
  all_goals cases effect with
    | enter nonzero => exact False.elim (nonzero (h.shows.cell_eq.trans zero))
    | skip _ partner => _
  · next partner =>
    rw [h.program_eq, h.pc_eq, Program.partners_loopStart hpair.get?_start] at partner
    exact congrArg (· + 1) (partner.end_unique hpair)
  · exact h.shows.touchCell.congr rfl rfl rfl rfl

/-- A loop is entered if the current cell is not zero. -/
theorem At.enter (h : At p l n s m) (hget : p.get? n = some .loopStart) (nonzero : s.cell ≠ 0)
    (effect : m.Performs none .loopStart e) : At p l (n + 1) s e.moveOn := by
  have current := h.current?_eq.trans hget
  refine h.performs current effect ?_ ?_
  all_goals cases effect with
    | enter => _
    | skip zero => exact False.elim (nonzero (h.shows.cell_eq.symm.trans zero))
  · exact congrArg (· + 1) h.pc_eq
  · exact h.shows.touchCell.congr rfl rfl rfl rfl

-- The loop under way is the one that ends here.
private theorem At.start_eq {start top : Nat} {outer : List Nat} (h : At p l n s m)
    (hpair : p.Pair start n) (stack : m.loopStack = top :: outer) : top = start := by
  have hopen := h.sound.loopStack_eq.symm.trans stack
  rw [h.program_eq, h.pc_eq] at hopen
  exact Program.Pair.start_unique ⟨hpair.1, outer, hopen⟩ hpair

/-- At the end of a loop its body is repeated if the current cell is not zero. -/
theorem At.again {start : Nat} (h : At p l n s m) (hpair : p.Pair start n) (nonzero : s.cell ≠ 0)
    (effect : m.Performs none .loopEnd e) : At p l (start + 1) s e.moveOn := by
  have current := h.current?_eq.trans hpair.1
  refine h.performs current effect ?_ ?_
  all_goals cases effect with
    | again _ stack => _
    | leave zero => exact False.elim (nonzero (h.shows.cell_eq.symm.trans zero))
  · next stack => exact congrArg (· + 1) (h.start_eq hpair stack)
  · exact h.shows.touchCell.congr rfl rfl rfl rfl

/-- At the end of a loop the machine goes on behind it if the current cell is zero. -/
theorem At.leave {start : Nat} (h : At p l n s m) (hpair : p.Pair start n) (zero : s.cell = 0)
    (effect : m.Performs none .loopEnd e) : At p l (n + 1) s e.moveOn := by
  have current := h.current?_eq.trans hpair.1
  refine h.performs current effect ?_ ?_
  all_goals cases effect with
    | again nonzero => exact False.elim (nonzero (h.shows.cell_eq.trans zero))
    | leave => _
  · exact congrArg (· + 1) h.pc_eq
  · exact h.shows.touchCell.congr rfl rfl rfl rfl

/-! ### Visits of a machine -/

/-- The machine makes the visits as long as it executes their instructions, and then has a property. -/
def Passes (post : Machine → Prop) : List Visit → Machine → Prop
  | [], m => post m
  | v :: vs, m => m.current? = some v.instruction ∧ m.Shows v.store ∧
    ∀ e, m.Performs none v.instruction e → Passes post vs e.moveOn

theorem Passes.mono (h : Passes post vs m) (hpost : ∀ m', post m' → post' m') :
    Passes post' vs m := by
  induction vs generalizing m with
  | nil => exact hpost m h
  | cons v vs ih =>
    obtain ⟨current, hshows, hnext⟩ := h
    exact ⟨current, hshows, fun e effect ↦ ih (hnext e effect)⟩

theorem passes_append : Passes post (vs ++ ws) m ↔ Passes (Passes post ws) vs m := by
  induction vs generalizing m with
  | nil => exact Iff.rfl
  | cons v vs ih => simp only [List.cons_append, Passes, ih]

end Machine

/-! ### Places in a program -/

def Control.code : Control → List Instruction
  | .front b => b.code
  | .inside body rest => body.code ++ .loopEnd :: rest.code

/-- The program holds the instructions from a place on; inside a loop the opening bracket comes just before. -/
def Control.Stands (p : Program) (n : Nat) (c : Control) : Prop :=
  p.Spells n c.code ∧
    match c with
    | .front _ => True
    | .inside _ _ => ∃ start, n = start + 1 ∧ p.get? start = some .loopStart

namespace Machine

variable {c : Control} {r : Option Store} {stop : Nat}

/-- The machine stands at a position with the store of an evaluation, if the evaluation is complete. -/
def Finishes (p : Program) (l : Limits) (stop : Nat) (r : Option Store) (m : Machine) : Prop :=
  ∀ s, r = some s → At p l stop s m

/-- A machine in front of a place in a program makes the visits of every evaluation from there. -/
theorem passes_of_evaluates (h : Evaluates l.inputBytes c s vs r) (hc : c.Stands p n)
    (hstop : n + c.code.length = stop) (hm : At p l n s m) :
    Passes (Finishes p l stop r) vs m := by
  induction h generalizing n stop m with
  | cut => exact fun s hs ↦ nomatch hs
  | done =>
    rintro s ⟨⟩
    obtain rfl : n = stop := hstop
    exact hm
  | @basic a rest s vs r next ih =>
    obtain ⟨⟨hget, hrest⟩, -⟩ := hc
    have current := hm.current?_eq.trans hget
    refine ⟨current, hm.shows, fun e effect ↦ ih ⟨hrest, trivial⟩ ?_ ?_⟩
    · rw [← hstop, Nat.add_assoc, Nat.add_comm 1]
      rfl
    · have hshows := hm.shows.performs effect
      rw [hm.limits_eq] at hshows
      exact hm.performs current effect (congrArg (· + 1) (effect.pc_eq.trans hm.pc_eq)) hshows
  | @skip body rest s vs r zero next ih =>
    obtain ⟨⟨hstart, hinner⟩, -⟩ := hc
    have hpair := Program.pair_of_spells hstart hinner
    obtain ⟨-, -, hrest⟩ := Program.spells_append.mp hinner
    refine ⟨hm.current?_eq.trans hstart, hm.shows, fun e effect ↦ ih ⟨hrest, trivial⟩ ?_ ?_⟩
    · simp only [Control.code, Block.code, List.length_cons, List.length_append] at hstop ⊢
      omega
    · exact hm.skip hpair zero effect
  | @enter body rest s vs r nonzero next ih =>
    obtain ⟨⟨hstart, hinner⟩, -⟩ := hc
    refine ⟨hm.current?_eq.trans hstart, hm.shows,
      fun e effect ↦ ih ⟨hinner, n, rfl, hstart⟩ ?_ ?_⟩
    · rw [← hstop, Nat.add_assoc, Nat.add_comm 1]
      rfl
    · exact hm.enter hstart nonzero effect
  | @within body rest s vs round ih =>
    obtain ⟨hinner, -⟩ := hc
    obtain ⟨hbody, -⟩ := Program.spells_append.mp hinner
    exact (ih ⟨hbody, trivial⟩ rfl hm).mono fun m' _ s hs ↦ nomatch hs
  | @again body rest s s' vs ws r round nonzero next ihround ih =>
    obtain ⟨hinner, start, rfl, hstart⟩ := hc
    have hpair := Program.pair_of_spells hstart hinner
    obtain ⟨hbody, -⟩ := Program.spells_append.mp hinner
    refine passes_append.mpr ((ihround ⟨hbody, trivial⟩ rfl hm).mono fun m' hm' ↦ ?_)
    have hm' := hm' s' rfl
    refine ⟨hm'.current?_eq.trans hpair.1, hm'.shows, fun e effect ↦ ?_⟩
    exact ih ⟨hinner, start, rfl, hstart⟩ hstop (hm'.again hpair nonzero effect)
  | @leave body rest s s' vs ws r round zero next ihround ih =>
    obtain ⟨hinner, start, rfl, hstart⟩ := hc
    have hpair := Program.pair_of_spells hstart hinner
    obtain ⟨hbody, -, hrest⟩ := Program.spells_append.mp hinner
    refine passes_append.mpr ((ihround ⟨hbody, trivial⟩ rfl hm).mono fun m' hm' ↦ ?_)
    have hm' := hm' s' rfl
    refine ⟨hm'.current?_eq.trans hpair.1, hm'.shows, fun e effect ↦ ih ⟨hrest, trivial⟩ ?_ ?_⟩
    · simp only [Control.code, List.length_cons, List.length_append] at hstop ⊢
      omega
    · exact hm'.leave hpair zero effect

end Machine

end TapeLang
