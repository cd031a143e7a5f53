import TapeLang.Proofs.Machine.Bounds
import TapeLang.Proofs.Machine.Calls
import TapeLang.Proofs.Program.Segment

/-!
# Balanced segments of a program

A machine that comes to a balanced segment of its program does there what another
machine does that has the segment for a program of its own (`within`). Positions
are shifted, the loops of the segment lie on the loops under way, and its output
follows the output so far. Each call keeps the correspondence (`Hosts.make_within`),
so it holds as long as the segment lasts and nothing cuts the calls short.

Main statement: `segment_runs_as_if_alone`.
-/

namespace TapeLang

/-- The same fault at a shifted position. -/
def Fault.shift (offset : Nat) : Fault → Fault
  | unmatchedBracket ⟨symbol, position⟩ => unmatchedBracket ⟨symbol, offset + position⟩
  | memoryLimit limit position => memoryLimit limit (offset + position)
  | inputUnavailable position failure => inputUnavailable (offset + position) failure
  | stepLimit limit => stepLimit limit
  | timeout limit => timeout limit
  | userStopped => userStopped

namespace Status

/-- A budget is used up, or a stop was requested. -/
def cutsShort : Status → Bool
  | failed (.stepLimit _) | failed (.timeout _) | failed .userStopped => true
  | _ => false

/-- The answer of a program as the answer of a larger one that holds it from a position on. The end of the program
is the end of the larger one only if nothing stands behind it. -/
def within (offset : Nat) (last : Bool) : Status → Status
  | more => more
  | finished => if last then finished else more
  | failed fault => failed (fault.shift offset)

end Status

namespace Machine

variable {m m' n n' : Machine} {pre post : List Instruction} {s : Program} {i : Instruction}
  {provided : Option UInt8} {fault : Fault} {call : Call} {stop : Nat}

/-- The machine that is where `n` is, in code that `m` came to at a position. -/
def within (n m : Machine) (offset : Nat) : Machine :=
  { m with
    tape := n.tape
    pointer := n.pointer
    pc := offset + n.pc
    loopStack := n.loopStack.map (offset + ·) ++ m.loopStack
    printed := n.printed ++ m.printed
    inputPosition := n.inputPosition
    stepCount := m.stepCount + n.stepCount }

/-- The machine `m` has the program of `n` for a balanced segment of its own, as much room and the same input. -/
structure Hosts (m : Machine) (pre : List Instruction) (n : Machine) (post : List Instruction) :
    Prop where
  segment : m.program.Segment pre n.program post
  maxMemory_eq : n.limits.maxMemory = m.limits.maxMemory
  inputBytes_eq : n.limits.inputBytes = m.limits.inputBytes

/-- Two machines serve the same calls until the first comes to a position, and none of the calls is cut short. A
stop may be requested on the way by a reply without a byte. -/
inductive Lockstep (stop : Nat) (m n : Machine) : Bool → Machine → Machine → Prop
  | start : Lockstep stop m n false m n
  | call {requested : Bool} {m' n' : Machine} (before : Lockstep stop m n requested m' n')
      (ahead : m'.pc ≠ stop) (call : Call)
      (hm : (call.make m').2.cutsShort = false) (hn : (call.make n').2.cutsShort = false) :
    Lockstep stop m n (requested || call.requestsStop n') (call.make m').1 (call.make n').1

theorem output_within (n m : Machine) (offset : Nat) :
    (n.within m offset).output = m.output ++ n.output :=
  List.reverse_append

/-! ### One instruction -/

section Instruction

variable (h : m.Hosts pre n post)
include h

/-- Inside the segment both machines are in front of the same instruction. -/
theorem Hosts.current?_within (inside : n.pc < n.program.size) :
    (n.within m pre.length).current? = n.current? :=
  h.segment.get?_eq inside

theorem Hosts.readInput_within (offset : Nat) :
    (n.within m offset).readInput = (n.readInput.1, n.readInput.2.within m offset) := by
  have hinput : m.image.input = n.image.input := by
    rw [m.image.input_eq, n.image.input_eq]
    exact congrArg List.toArray h.inputBytes_eq.symm
  unfold readInput
  simp only [within, hinput]
  split <;> rfl

/-- The segment has the same effect as the program. -/
theorem Performs.within (effect : n.Performs provided i n') (current : n.current? = some i) :
    (n.within m pre.length).Performs provided i (n'.within m pre.length) := by
  cases effect with
  | increment => exact .increment
  | decrement => exact .decrement
  | left => exact .left
  | right room => exact .right (h.maxMemory_eq ▸ room)
  | enter nonzero => exact .enter nonzero
  | skip zero partner =>
    have hpair := h.segment.pair ((Program.partners_loopStart current).mp partner)
    exact .skip zero ((Program.partners_loopStart hpair.get?_start).mpr hpair)
  | again nonzero stack =>
    have stack' := congrArg (·.map (pre.length + ·) ++ m.loopStack) stack
    exact .again nonzero stack'
  | leave zero stack =>
    have stack' := congrArg (·.map (pre.length + ·) ++ m.loopStack) stack
    exact .leave zero stack'
  | output => exact .output
  | provided given => exact .provided given
  | read own =>
    have effect := Performs.read (m := n.within m pre.length) own
    rw [h.readInput_within] at effect
    exact effect

/-- The segment is refused an instruction only for lack of room. -/
theorem Refuses.within (effect : n.Refuses i n' fault) (sound : n.StackSound)
    (current : n.current? = some i) :
    (n.within m pre.length).Refuses i (n'.within m pre.length) (fault.shift pre.length) := by
  cases effect with
  | noRoom full =>
    rw [h.maxMemory_eq] at full ⊢
    exact .noRoom full
  | unclosed _ alone =>
    obtain ⟨stop, hpair⟩ := h.segment.exists_pair current
    have := alone.symm.trans ((Program.partners_loopStart current).mpr hpair)
    contradiction
  | stray empty => exact absurd (sound.loopStack_eq.symm.trans empty) (h.segment.openAt_ne_nil current)

end Instruction

/-! ### One call -/

/-- A call that is not cut short finds budget left. -/
theorem Call.outOfSteps_eq (current : m.current? = some i)
    (calm : (call.make m).2.cutsShort = false) : m.outOfSteps = false := by
  apply Bool.eq_false_iff.mpr
  intro budget
  rw [(Declines.spent current budget).stuck.make call] at calm
  contradiction

/-- Machines that ask for a byte alike make the same step of a call, or get no byte both, unless the call is
cut short. -/
theorem Call.make_alike (call : Call) (asks : m.Asks ↔ n.Asks)
    (calm : (call.make m).2.cutsShort = false) :
    (call.requestsStop n = false ∧
        ∃ provided, call.make m = m.stepWith provided ∧ call.make n = n.stepWith provided) ∨
      ∃ failure,
        call.make m =
          (m.heed (call.requestsStop n), .failed (.inputUnavailable m.pc failure)) ∧
        call.make n =
          (n.heed (call.requestsStop n), .failed (.inputUnavailable n.pc failure)) := by
  cases call with
  | step => exact Or.inl ⟨rfl, none, rfl, rfl⟩
  | stepFed feed =>
    rw [make_stepFed] at calm
    rw [make_stepFed, make_stepFed]
    by_cases hm : m.Asks
    · have hn := asks.mp hm
      rw [requestsStop_of_asks hn]
      cases reply : feed.next.1 with
      | unavailable failure requestsStop =>
        rw [stepOnFeed_of_unavailable hm reply, stepOnFeed_of_unavailable hn reply]
        exact Or.inr ⟨failure, rfl, rfl⟩
      | byte value requestsStop =>
        rw [stepOnFeed_of_byte hm reply] at calm
        cases requestsStop with
        | true =>
          -- The stop that comes with the byte answers the call.
          simp [settle, receive, Status.cutsShort] at calm
        | false =>
          rw [stepOnFeed_of_byte hm reply, stepOnFeed_of_byte hn reply, ← receive_eq,
            ← receive_eq, heed_false, heed_false]
          exact Or.inl ⟨rfl, some value, (hm.stepWith_provided value).symm,
            (hn.stepWith_provided value).symm⟩
    · have hn : ¬ n.Asks := fun hn ↦ hm (asks.mpr hn)
      rw [requestsStop_of_idle hn, stepOnFeed_of_idle hm, stepOnFeed_of_idle hn]
      exact Or.inl ⟨rfl, none, rfl, rfl⟩

/-- Unless it is cut short, an executed instruction is answered by the end of the program or the lack of it. -/
theorem settle_of_calm (calm : m.settle.cutsShort = false) :
    m.settle = if m.isFinished then .finished else .more := by
  unfold settle at calm ⊢
  split at calm
  · contradiction
  split at calm
  · contradiction
  · next hstop hclock => rw [if_neg hstop, if_neg hclock]

/-- The segment ends where the machine that has it for a program finishes. -/
theorem Hosts.isFinished_within (h : m.Hosts pre n post) (hle : n.pc ≤ n.program.size) :
    (n.within m pre.length).isFinished = (n.isFinished && post.isEmpty) := by
  have hsize := h.segment.size_eq
  have hend : (n.within m pre.length).isFinished =
      decide (m.program.size ≤ pre.length + n.pc) := rfl
  rw [hend, isFinished, Bool.eq_iff_iff, Bool.and_eq_true, List.isEmpty_iff_length_eq_zero,
    decide_eq_true_iff, decide_eq_true_iff]
  omega

theorem Hosts.settle_within (h : m.Hosts pre n post) (hle : n.pc ≤ n.program.size)
    (hm : (n.within m pre.length).settle.cutsShort = false) (hn : n.settle.cutsShort = false) :
    (n.within m pre.length).settle = n.settle.within pre.length post.isEmpty := by
  rw [settle_of_calm hm, settle_of_calm hn, h.isFinished_within hle]
  cases n.isFinished <;> cases post.isEmpty <;> rfl

theorem Hosts.congr (h : m.Hosts pre n post) (himage : n'.image = n.image) :
    m.Hosts pre n' post := by
  have hprogram : n'.program = n.program := congrArg Image.program himage
  have hlimits : n'.limits = n.limits := congrArg Image.limits himage
  refine ⟨?_, ?_, ?_⟩
  · rw [hprogram]
    exact h.segment
  · rw [hlimits]
    exact h.maxMemory_eq
  · rw [hlimits]
    exact h.inputBytes_eq

theorem Hosts.heed (h : m.Hosts pre n post) (requestsStop : Bool) :
    (m.heed requestsStop).Hosts pre n post :=
  ⟨h.segment, h.maxMemory_eq, h.inputBytes_eq⟩

/-- What a machine with a program of its own keeps: its loops are under way and it stays inside the program. -/
structure Inside (n : Machine) : Prop where
  sound : n.StackSound
  pc_le : n.pc ≤ n.program.size

/-- A step in the segment is a step of the program. -/
theorem Hosts.stepWith_within (h : m.Hosts pre n post) (hn : n.Inside)
    (current : n.current? = some i) (budget : n.outOfSteps = false)
    (budget' : (n.within m pre.length).outOfSteps = false) (provided : Option UInt8)
    (calm : (n.stepWith provided).2.cutsShort = false)
    (calm' : ((n.within m pre.length).stepWith provided).2.cutsShort = false) :
    (n.within m pre.length).stepWith provided =
        ((n.stepWith provided).1.within m pre.length,
          (n.stepWith provided).2.within pre.length post.isEmpty) ∧
      (n.stepWith provided).1.Inside := by
  have current' := (h.current?_within (pc_lt current)).trans current
  have sound := hn.sound.stepsTo (stepWith_spec n provided)
  rcases stepWith_of_current provided current budget with ⟨n', effect, heq⟩ |
    ⟨n', fault, effect, heq⟩
  · have hprogram : n'.moveOn.program = n.program := congrArg Image.program effect.image_eq
    have hle : n'.moveOn.pc ≤ n'.moveOn.program.size := by
      rw [hprogram]
      exact pc_performs hn.sound current effect
    have hthere : (n.within m pre.length).stepWith provided =
        (n'.moveOn.within m pre.length, (n'.moveOn.within m pre.length).settle) :=
      (effect.within h current).stepWith_eq current' budget'
    rw [hthere] at calm' ⊢
    rw [heq] at calm sound ⊢
    have hhost : m.Hosts pre n'.moveOn post := h.congr effect.image_eq
    exact ⟨Prod.ext rfl (hhost.settle_within hle calm' calm), sound, hle⟩
  · have hthere := (effect.within h hn.sound current).stepWith_eq current' budget' provided
    have hframe := effect.frame
    have hpc : n'.pc = n.pc := (congrArg pc hframe :)
    have hprogram : n'.program = n.program := (congrArg program hframe :)
    rw [heq] at sound ⊢
    refine ⟨hthere, sound, ?_⟩
    rw [hpc, hprogram]
    exact hn.pc_le

/-- A call in the segment is a call of the program. -/
theorem Hosts.make_within (h : m.Hosts pre n post) (hn : n.Inside)
    (ahead : n.pc < n.program.size) (call : Call) (calm : (call.make n).2.cutsShort = false)
    (calm' : (call.make (n.within m pre.length)).2.cutsShort = false) :
    call.make (n.within m pre.length) =
        ((call.make n).1.within (m.heed (call.requestsStop n)) pre.length,
          (call.make n).2.within pre.length post.isEmpty) ∧
      (call.make n).1.Inside := by
  have hcurrent := h.current?_within ahead
  cases current : n.current? with
  | none =>
    have := Program.get?_eq_none_iff.mp current
    omega
  | some i =>
    have budget := Call.outOfSteps_eq current calm
    have budget' := Call.outOfSteps_eq (hcurrent.trans current) calm'
    have asks : (n.within m pre.length).Asks ↔ n.Asks := by
      rw [asks_iff, asks_iff, hcurrent, budget, budget']
    rcases call.make_alike asks calm' with ⟨hrequests, provided, hm, hown⟩ | ⟨failure, hm, hown⟩
    · rw [hm] at calm' ⊢
      rw [hown] at calm ⊢
      rw [hrequests, heed_false]
      exact h.stepWith_within hn current budget budget' provided calm calm'
    · rw [hm, hown]
      exact ⟨rfl, hn.sound.congr rfl rfl rfl, hn.pc_le⟩

/-! ### The whole segment -/

/-- The machine `m` has come to the segment, and `n` is in front of its program, with the same cells and as much
input read. -/
structure Enters (m : Machine) (pre : List Instruction) (n : Machine) (post : List Instruction) :
    Prop extends m.Hosts pre n post where
  pc_eq : m.pc = pre.length
  start : n.pc = 0 ∧ n.loopStack = [] ∧ n.printed = [] ∧ n.stepCount = 0
  tape_eq : n.tape = m.tape
  pointer_eq : n.pointer = m.pointer
  inputPosition_eq : n.inputPosition = m.inputPosition

theorem Enters.eq_within (h : m.Enters pre n post) : m = n.within m pre.length := by
  obtain ⟨hpc, hstack, hprinted, hcount⟩ := h.start
  unfold within
  rw [hpc, hstack, hprinted, hcount, h.tape_eq, h.pointer_eq, h.inputPosition_eq]
  exact congrArg ({ m with pc := · }) h.pc_eq

theorem Enters.inside (h : m.Enters pre n post) : n.Inside where
  sound := stackSound_of_start h.start.1 h.start.2.1
  pc_le := h.start.1 ▸ Nat.zero_le _

/-- The correspondence lasts through the segment. -/
theorem Enters.within_of_lockstep {requested : Bool} (h : m.Enters pre n post)
    (lockstep : Lockstep (pre.length + n.program.size) m n requested m' n') :
    m' = n'.within (m.heed requested) pre.length ∧ n'.Inside ∧ n'.image = n.image := by
  induction lockstep with
  | start =>
    rw [heed_false]
    exact ⟨h.eq_within, h.inside, rfl⟩
  | call before ahead call calm' calm ih =>
    rename_i requested m' n'
    obtain ⟨hwithin, hinside, himage⟩ := ih
    have hprogram : n'.program = n.program := congrArg Image.program himage
    have hahead : n'.pc < n'.program.size := by
      apply Nat.lt_of_le_of_ne hinside.pc_le
      intro hend
      rw [hwithin, ← hprogram, ← hend] at ahead
      exact ahead rfl
    have hhost : (m.heed requested).Hosts pre n' post := (h.congr himage).heed requested
    rw [hwithin] at calm' ⊢
    obtain ⟨hmake, hinside'⟩ := hhost.make_within hinside hahead call calm calm'
    rw [hmake, heed_heed]
    exact ⟨rfl, hinside', (call.make_spec n').image_eq.trans himage⟩

/-- The machine `m'` has gone on from `m` in the segment as `n'` has in the program that is the segment. -/
structure RunsAlike (pre post : List Instruction) (m m' n' : Machine) : Prop where
  /-- Cells, pointer and the input read are the same, positions and loops are shifted, output and count go on. -/
  machine_eq : m' = n'.within m pre.length
  output_eq : m'.output = m.output ++ n'.output
  /-- The next call does the same and answers alike, its faults at shifted positions. -/
  answer_eq : m'.pc ≠ pre.length + n'.program.size → ∀ call : Call,
    (call.make m').2.cutsShort = false → (call.make n').2.cutsShort = false →
      (call.make m').2 = (call.make n').2.within pre.length post.isEmpty
  /-- The end of the segment is the end of the program that is the segment, with no loop of it under way. -/
  end_iff : m'.pc = pre.length + n'.program.size ↔ n'.isFinished = true
  loopStack_eq : m'.pc = pre.length + n'.program.size → m'.loopStack = m.loopStack

/-- A balanced segment runs in any context as it runs alone: between any code, on any loop stack, and behind any
output and number of steps. A stop requested without a byte leaves its flag behind and fires at the next executed
instruction. -/
theorem segment_runs_as_if_alone {requested : Bool} (h : m.Enters pre n post)
    (lockstep : Lockstep (pre.length + n.program.size) m n requested m' n') :
    RunsAlike pre post (m.heed requested) m' n' := by
  obtain ⟨hwithin, hinside, himage⟩ := h.within_of_lockstep lockstep
  have hhost : (m.heed requested).Hosts pre n' post := (h.congr himage).heed requested
  have hpc : m'.pc = pre.length + n'.pc := congrArg pc hwithin
  constructor
  case machine_eq => exact hwithin
  case output_eq =>
    rw [hwithin]
    exact output_within n' (m.heed requested) pre.length
  case answer_eq =>
    intro ahead call calm' calm
    have hahead : n'.pc < n'.program.size := by
      have := hinside.pc_le
      omega
    rw [hwithin] at calm' ⊢
    rw [(hhost.make_within hinside hahead call calm calm').1]
  case end_iff =>
    have hle := hinside.pc_le
    rw [hpc, isFinished, decide_eq_true_iff]
    omega
  case loopStack_eq =>
    intro hend
    have hlast : n'.pc = n'.program.size := by omega
    have hstack : n'.loopStack = [] := by
      rw [hinside.sound.loopStack_eq, hlast, hhost.segment.openAt_size]
    rw [hwithin, within, hstack]
    rfl

/-- Stray brackets around a loop and another loop under way do not capture its jumps. -/
theorem segment_runs_between_stray_brackets :
    let loop : Program := ⟨#[.loopStart, .decrement, .loopEnd]⟩
    let m := { load ⟨#[.loopEnd, .loopStart, .loopStart, .decrement, .loopEnd, .loopEnd]⟩ {} with
      tape := ⟨#[0, 1]⟩
      pointer := 1
      pc := 2
      loopStack := [9]
      stepCount := 7 }
    let n := { load loop {} with tape := ⟨#[0, 1]⟩, pointer := 1 }
    n.step.1.step.1.step.2 = .finished ∧
      RunsAlike [.loopEnd, .loopStart] [.loopEnd] m m.step.1.step.1.step.1
        n.step.1.step.1.step.1 := by
  intro loop m n
  have enters : m.Enters [.loopEnd, .loopStart] n [.loopEnd] :=
    ⟨⟨⟨rfl, by decide +kernel⟩, rfl, rfl⟩, rfl, ⟨rfl, rfl, rfl, rfl⟩, rfl, rfl, rfl⟩
  have lockstep : Lockstep 5 m n false m.step.1.step.1.step.1 n.step.1.step.1.step.1 := by
    refine .call (.call (.call .start ?_ .step ?_ ?_) ?_ .step ?_ ?_) ?_ .step ?_ ?_ <;>
      decide +kernel
  have halike := segment_runs_as_if_alone enters lockstep
  rw [heed_false] at halike
  exact ⟨by decide +kernel, halike⟩

end Machine

end TapeLang
