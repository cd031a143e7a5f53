import Mathlib.Logic.Function.Basic
import Mathlib.Order.Bounds.Basic
import TapeLang.Proofs.Machine.Footprint

/-!
# Allocation

A tape allocates a cell when an instruction first looks at it. What a history of
calls looks at is a list of accesses (`accesses`), which says where each of them
takes place and what becomes of the value there, and nothing of a tape. Played
back on a memory of zeros without end, the accesses give the values that are on the
tape, and the greatest index among them tells how far the tape reaches.

Main statement: `tape_reaches_last_access`.
-/

namespace TapeLang

/-- A look at a cell, and what becomes of its value. -/
structure Access where
  index : Nat
  change : UInt8 → UInt8

namespace Access

/-- The access to a memory in which every cell has a value. -/
def write (memory : Nat → UInt8) (a : Access) : Nat → UInt8 :=
  Function.update memory a.index (a.change (memory a.index))

/-- The number of cells behind an access, in front of which there were some. -/
def extend (size : Nat) (a : Access) : Nat := max size (a.index + 1)

end Access

namespace Machine

variable {m m' : Machine} {i : Instruction} {call : Call} {act : Act}
  {fault : Fault}

/-- A call reaches the next instruction if it executes it, or fails at it as an opening bracket without a partner: such
a bracket is found out behind a look at the cell. -/
def Call.Reaches (m : Machine) (call : Call) : Prop :=
  (call.make m).1.stepCount = m.stepCount + 1 ∨
    (call.make m).2 = .failed (.unmatchedBracket ⟨'[', m.pc⟩)

instance (m : Machine) (call : Call) : Decidable (call.Reaches m) :=
  inferInstanceAs (Decidable (_ ∨ _))

/-- The access that a call makes. -/
def Call.access? (m : Machine) (call : Call) : Option Access :=
  match m.current? with
  | none => none
  | some i =>
    if i.usesCell ∧ call.Reaches m then some ⟨m.pointer, i.change (call.byte m)⟩ else none

/-- The access that an act makes; to set a flag is to make none. -/
def Act.access? (m : Machine) : Act → Option Access
  | .call c => c.access? m
  | .withClock _ | .stop | .startClock => none

def accesses (m : Machine) : List Act → List Access
  | [] => []
  | act :: acts => (act.access? m).toList ++ (act.apply m).accesses acts

/-! ### One call -/

theorem Call.access?_eq_some (current : m.current? = some i) (uses : i.usesCell = true)
    (reaches : call.Reaches m) : call.access? m = some ⟨m.pointer, i.change (call.byte m)⟩ := by
  rw [access?, current]
  exact if_pos ⟨uses, reaches⟩

theorem Call.access?_eq_none (h : ¬ call.Reaches m) : call.access? m = none := by
  unfold access?
  split
  · rfl
  · exact if_neg fun hboth ↦ h hboth.2

/-- What accesses make of the cells of a tape. -/
structure Takes (t : Tape) (accesses : List Access) (t' : Tape) : Prop where
  size_eq : t'.size = accesses.foldl Access.extend t.size
  get_eq : t'.get = accesses.foldl Access.write t.get

theorem takes_nil (t : Tape) : Takes t [] t := ⟨rfl, rfl⟩

theorem Takes.append {t t' t'' : Tape} {first rest : List Access} (h : Takes t first t')
    (h' : Takes t' rest t'') : Takes t (first ++ rest) t'' := by
  constructor
  · rw [h'.size_eq, h.size_eq, List.foldl_append]
  · rw [h'.get_eq, h.get_eq, List.foldl_append]

/-- An executed instruction makes its access. -/
private theorem Executed.takes (effect : m.Executed (call.byte m) i m')
    (current : m.current? = some i) (reaches : call.Reaches m) :
    Takes m.tape (call.access? m).toList m'.tape := by
  have hget : m'.tape.get =
      Function.update m.tape.get m.pointer (i.change (call.byte m) (m.tape.get m.pointer)) := by
    funext index
    rw [effect.get_eq, Function.update_apply]
    rfl
  cases uses : i.usesCell with
  | true =>
    have hsize := effect.size_eq
    rw [uses, if_pos rfl] at hsize
    rw [Call.access?_eq_some current uses reaches]
    exact ⟨hsize, hget⟩
  | false =>
    have hsize := effect.size_eq
    have hnone : call.access? m = none := by
      rw [Call.access?, current]
      exact if_neg (by simp [uses])
    have hsame : i.change (call.byte m) (m.tape.get m.pointer) = m.tape.get m.pointer := by
      cases i <;> first | rfl | contradiction
    rw [uses, if_neg Bool.false_ne_true] at hsize
    rw [hsame, Function.update_eq_self] at hget
    rw [hnone]
    exact ⟨hsize, hget⟩

/-- A call makes its access. -/
theorem Call.takes (m : Machine) (call : Call) :
    Takes m.tape (call.access? m).toList (call.make m).1.tape := by
  by_cases hcount : (call.make m).1.stepCount = m.stepCount + 1
  · obtain ⟨i, current, effect⟩ := Call.executed hcount
    exact effect.takes current (Or.inl hcount)
  -- Nothing is executed, so an access is made only by an opening bracket that is refused.
  have hidle (h : (call.make m).2 ≠ .failed (.unmatchedBracket ⟨'[', m.pc⟩))
      (htape : (call.make m).1.tape = m.tape) :
      Takes m.tape (call.access? m).toList (call.make m).1.tape := by
    rw [access?_eq_none (not_or.mpr ⟨hcount, h⟩), htape]
    exact takes_nil m.tape
  have hfailed (h : (call.make m).2 = .failed (.unmatchedBracket ⟨'[', m.pc⟩))
      (current : m.current? = some .loopStart)
      (htape : (call.make m).1.tape = m.tape.allocate m.pointer) :
      Takes m.tape (call.access? m).toList (call.make m).1.tape := by
    rw [access?_eq_some current rfl (Or.inr h), htape]
    refine ⟨Tape.size_allocate m.tape m.pointer, ?_⟩
    funext index
    exact (Tape.get_allocate _ _ _).trans (congrFun (Function.update_eq_self _ _).symm index)
  have hspec := call.make_spec m
  generalize (call.make m).1 = m' at hspec hcount hidle hfailed ⊢
  generalize hanswer : (call.make m).2 = answer at hspec hidle hfailed
  generalize call.requestsStop m = requestsStop at hspec
  cases hspec with
  | ended | unserved => exact hidle nofun rfl
  | executed _ count => exact absurd count hcount
  | declined refusal =>
    cases refusal with
    | spent => exact hidle nofun rfl
    | refused current _ effect =>
      cases effect with
      | noRoom => exact hidle nofun rfl
      | unclosed => exact hfailed rfl current rfl
      | stray => exact hidle (by simp) rfl

/-! ### Which calls look at a cell -/

/-- Whether an input instruction gets a byte from the call. -/
def Call.serves : Call → Bool
  | step => true
  | stepFed feed => feed.next.1.byte?.isSome

/-- A call looks at the current cell: the budget lets it come to an instruction that uses the cell, which is no closing
bracket outside of all loops and no input instruction without a byte. -/
structure LooksAtCell (m : Machine) (call : Call) : Prop where
  budget : m.stepCount < m.limits.maxSteps
  current : ∃ i, m.current? = some i ∧ i.usesCell = true
  inLoop : m.current? = some .loopEnd → m.loopStack ≠ []
  served : m.current? = some .input → call.serves = true

private theorem not_reaches_of_declines (h : m.Declines m fault)
    (hfault : fault ≠ .unmatchedBracket ⟨'[', m.pc⟩) (call : Call) : ¬ call.Reaches m := by
  rw [Call.Reaches, h.stuck.make call]
  rintro (hcount | hanswer)
  · exact Nat.succ_ne_self _ hcount.symm
  · exact hfault (Status.failed.inj hanswer)

private theorem budget_of_reaches (current : m.current? = some i) (h : call.Reaches m) :
    m.outOfSteps = false := by
  cases budget : m.outOfSteps with
  | false => rfl
  | true => exact absurd h (not_reaches_of_declines (.spent current budget) nofun call)

private theorem serves_of_reaches (current : m.current? = some .input) (h : call.Reaches m) :
    call.serves = true := by
  cases call with
  | step => rfl
  | stepFed feed =>
    rw [Call.serves]
    cases reply : feed.next.1 with
    | byte => rfl
    | unavailable failure =>
      have asks : m.Asks := asks_iff.mpr ⟨current, budget_of_reaches current h⟩
      rw [Call.Reaches, Call.make_stepFed, stepOnFeed_of_unavailable asks reply] at h
      rcases h with hcount | hanswer
      · exact absurd hcount.symm (Nat.succ_ne_self _)
      · exact absurd (Status.failed.inj hanswer) nofun

private theorem LooksAtCell.reaches (h : m.LooksAtCell call) : call.Reaches m := by
  obtain ⟨i, current, uses⟩ := h.current
  have budget : m.outOfSteps = false := decide_eq_false (Nat.not_le.mpr h.budget)
  have hstep : Call.step.Reaches m := by
    rw [Call.Reaches, Call.make, step]
    rcases stepWith_of_current none current budget with ⟨m', effect, heq⟩ |
      ⟨m', fault, effect, heq⟩
    · rw [heq]
      exact Or.inl effect.stepCount_moveOn
    · rw [heq]
      cases effect with
      | noRoom => contradiction
      | unclosed => exact Or.inr rfl
      | stray empty => exact absurd empty (h.inLoop current)
  cases call with
  | step => exact hstep
  | stepFed feed =>
    rw [Call.Reaches, Call.make_stepFed]
    by_cases asks : m.Asks
    · cases reply : feed.next.1 with
      | byte value requestsStop =>
        rw [stepOnFeed_of_byte asks reply]
        exact Or.inl rfl
      | unavailable failure =>
        have hserved := h.served asks.1
        rw [Call.serves, reply] at hserved
        contradiction
    · rw [stepOnFeed_of_idle asks]
      exact hstep

/-- The calls that make an access are those that look at the current cell. -/
theorem Call.isSome_access?_iff : (call.access? m).isSome = true ↔ m.LooksAtCell call := by
  constructor
  · intro h
    unfold access? at h
    split at h
    · contradiction
    · next i current =>
      split at h
      · next hboth =>
        obtain ⟨uses, reaches⟩ := hboth
        have budget := budget_of_reaches current reaches
        refine ⟨Nat.lt_of_not_le (of_decide_eq_false budget), ⟨i, current, uses⟩, ?_, ?_⟩
        · intro hend hempty
          exact not_reaches_of_declines (.refused hend budget (.stray hempty)) (by simp) call
            reaches
        · exact fun hinput ↦ serves_of_reaches hinput reaches
      · contradiction
  · intro h
    obtain ⟨i, current, uses⟩ := h.current
    rw [access?_eq_some current uses h.reaches]
    rfl

/-! ### All histories -/

/-- Acts make their accesses one after another. -/
theorem takes_after (m : Machine) (acts : List Act) :
    Takes m.tape (m.accesses acts) (m.after acts).tape := by
  induction acts generalizing m with
  | nil => exact takes_nil m.tape
  | cons act acts ih =>
    refine Takes.append ?_ (ih (act.apply m))
    cases act with
    | call c => exact c.takes m
    | withClock | stop | startClock => exact takes_nil m.tape

/-- No access lies behind the cells that are allocated for it. -/
theorem le_foldl_extend (accesses : List Access) (size : Nat) :
    size ≤ accesses.foldl Access.extend size ∧
      ∀ a ∈ accesses, a.index + 1 ≤ accesses.foldl Access.extend size := by
  induction accesses generalizing size with
  | nil => simp
  | cons a rest ih =>
    obtain ⟨hsize, hrest⟩ := ih (Access.extend size a)
    rw [List.foldl_cons]
    refine ⟨Nat.le_trans (Nat.le_max_left _ _) hsize, fun b hb ↦ ?_⟩
    rcases List.mem_cons.mp hb with rfl | hb
    · exact Nat.le_trans (Nat.le_max_right _ _) hsize
    · exact hrest b hb

/-- No cell is allocated behind the last access. -/
theorem foldl_extend_cases (accesses : List Access) (size : Nat) :
    accesses.foldl Access.extend size = size ∨
      ∃ a ∈ accesses, accesses.foldl Access.extend size = a.index + 1 := by
  induction accesses generalizing size with
  | nil => exact Or.inl rfl
  | cons a rest ih =>
    rw [List.foldl_cons]
    rcases ih (Access.extend size a) with hfirst | ⟨b, hb, hlast⟩
    · rw [hfirst, Access.extend]
      rcases Nat.le_total size (a.index + 1) with hle | hle
      · exact Or.inr ⟨a, List.mem_cons_self, Nat.max_eq_right hle⟩
      · exact Or.inl (Nat.max_eq_left hle)
    · exact Or.inr ⟨b, List.mem_cons_of_mem a hb, hlast⟩

/-- What accesses leave behind of a tape without cells. -/
structure Leaves (accesses : List Access) (t : Tape) : Prop where
  /-- Without an access no cell is allocated. -/
  size_eq_zero : accesses = [] → t.size = 0
  /-- Otherwise the cells are those up to the greatest index of an access. -/
  size_eq : accesses ≠ [] →
    ∃ last, IsGreatest {index | ∃ a ∈ accesses, a.index = index} last ∧ t.size = 1 + last
  /-- Each cell, allocated or not, has the value that it has in a memory of zeros behind the same accesses. -/
  get_eq : ∀ index, t.get index = accesses.foldl Access.write (fun _ ↦ 0) index

theorem Takes.leaves {accesses : List Access} {t : Tape} (h : Takes {} accesses t) :
    Leaves accesses t := by
  have hsize : t.size = accesses.foldl Access.extend 0 := h.size_eq
  constructor
  case size_eq_zero =>
    rintro rfl
    exact hsize
  case size_eq =>
    intro hne
    obtain ⟨a, rest, rfl⟩ := List.exists_cons_of_ne_nil hne
    obtain ⟨-, hle⟩ := le_foldl_extend (a :: rest) 0
    rcases foldl_extend_cases (a :: rest) 0 with hzero | ⟨b, hb, hlast⟩
    · have := hle a List.mem_cons_self
      omega
    · refine ⟨b.index, ⟨⟨b, hb, rfl⟩, ?_⟩, by omega⟩
      rintro _ ⟨c, hc, rfl⟩
      have := hle c hc
      omega
  case get_eq =>
    intro index
    have hzeros : ({} : Tape).get = fun _ ↦ 0 := funext Tape.get_empty
    rw [h.get_eq, hzeros]

/-- From its start a machine allocates the cells up to the last one that a call looks at, and none if no call looks at a
cell, whatever is called, with whatever feeds, and however many of the calls fail. What is on the tape is what the
same accesses leave in a memory of zeros. A call makes an access, to the current cell, if the budget lets it come to
an instruction that uses the cell; closing brackets outside of all loops and input instructions without a byte do
not count. -/
theorem tape_reaches_last_access (p : Program) (l : Limits) (acts : List Act) :
    Leaves ((load p l).accesses acts) ((load p l).after acts).tape ∧
      ∀ (m : Machine) (call : Call),
        ((call.access? m).isSome = true ↔ m.LooksAtCell call) ∧
          ∀ a ∈ call.access? m, a.index = m.pointer := by
  refine ⟨((load p l).takes_after acts).leaves, fun m call ↦ ⟨Call.isSome_access?_iff, ?_⟩⟩
  intro a ha
  unfold Call.access? at ha
  split at ha
  · contradiction
  · split at ha
    · rw [← Option.some.inj ha]
    · contradiction

/-- The input instruction makes its access when it gets a byte, and the opening bracket without a partner makes one each
time it is refused. -/
theorem tape_reaches_refused_bracket :
    let m := load (Program.ofText ">,>[") {}
    let acts := [.step, .stepFed (.ofBytes []), .step, .step, .step, .step].map Act.call
    (m.accesses acts).map Access.index = [1, 2, 2] ∧ (m.after acts).tape.size = 3 ∧
      Leaves (m.accesses acts) (m.after acts).tape :=
  ⟨by decide +kernel, by decide +kernel, (tape_reaches_last_access _ _ _).1⟩

end Machine

end TapeLang
