import Mathlib.Data.List.Chain
import TapeLang.Proofs.Machine.Footprint
import TapeLang.Proofs.Trace.Requests
import TapeLang.Trace.Report

/-!
# Footprints in a recording

Behind each snapshot of a recording comes the one that one instruction makes of it
(`Snapshot.Precedes`), whatever was asked of the recorder: as long as the
recording has not ended, its last snapshot shows the machine as it stands, and a
snapshot is added for an executed instruction only. So the output and the cells of a
recording grow from snapshot to snapshot, and the widest snapshot is the last one.

Main statement: `snapshots_differ_by_one_instruction`.
-/

namespace TapeLang

namespace Snapshot

/-- The character of the current cell. -/
def cellText (s : Snapshot) : String := Latin1.decode [s.tape.get s.pointer]

/-- What one instruction changes between a snapshot and the next one. -/
structure Precedes (s t : Snapshot) : Prop where
  /-- The pointer moves by one at most. -/
  pointer_le : t.pointer ≤ s.pointer + 1
  le_pointer : s.pointer ≤ t.pointer + 1
  /-- At most one character is printed. -/
  output_cases : t.outputText = s.outputText ∨ ∃ c : Char, t.outputText = s.outputText.push c
  /-- It is the character of the current cell exactly if the instruction prints. -/
  output_iff : t.outputText = s.outputText ++ s.cellText ↔ s.instruction = some .output
  /-- No other cell gets another value. -/
  get_eq : ∀ index, index ≠ s.pointer → t.tape.get index = s.tape.get index
  /-- No cell is freed. -/
  size_le : s.tape.size ≤ t.tape.size
  /-- At most one byte of the input text is read. -/
  le_inputPosition : s.inputPosition ≤ t.inputPosition
  inputPosition_le : t.inputPosition ≤ s.inputPosition + 1

/-- A snapshot with at least the output and the cells of another one. -/
structure Grows (s t : Snapshot) : Prop where
  output : ∃ rest, t.outputText = s.outputText ++ rest
  size_le : s.tape.size ≤ t.tape.size

theorem Precedes.grows {s t : Snapshot} (h : s.Precedes t) : s.Grows t := by
  refine ⟨?_, h.size_le⟩
  rcases h.output_cases with hsame | ⟨c, hpush⟩
  · exact ⟨"", by simp [hsame]⟩
  · exact ⟨String.singleton c, by rw [hpush, String.append_singleton]⟩

theorem Grows.trans {s t u : Snapshot} (h : s.Grows t) (h' : t.Grows u) : s.Grows u := by
  obtain ⟨rest, hrest⟩ := h.output
  obtain ⟨rest', hrest'⟩ := h'.output
  exact ⟨⟨rest ++ rest', by rw [hrest', hrest, String.append_assoc]⟩,
    Nat.le_trans h.size_le h'.size_le⟩

instance : Trans Grows Grows Grows := ⟨Grows.trans⟩

end Snapshot

namespace Machine

variable {m m' : Machine} {i : Instruction} {byte : UInt8}

/-- An executed instruction leads from the snapshot in front of it to one behind. -/
theorem Executed.precedes (h : m.Executed byte i m') (current : m.current? = some i) :
    (Snapshot.ofMachine m).Precedes (.ofMachine m') := by
  have hpointer : m'.pointer = i.move m.pointer := h.pointer_eq
  have hprinted := h.printed_eq
  have hinput := h.inputPosition_cases
  constructor
  case pointer_le =>
    show m'.pointer ≤ m.pointer + 1
    cases i <;> simp only [hpointer, Instruction.move] <;> omega
  case le_pointer =>
    show m.pointer ≤ m'.pointer + 1
    cases i <;> simp only [hpointer, Instruction.move] <;> omega
  case output_cases =>
    by_cases hi : i = .output
    · rw [if_pos hi] at hprinted
      refine Or.inr ⟨Char.ofUInt8 m.cell, ?_⟩
      simp [Snapshot.outputText, Snapshot.ofMachine, hprinted, Latin1.decode]
    · rw [if_neg hi] at hprinted
      exact Or.inl (congrArg (fun printed : List UInt8 ↦ Latin1.decode printed.reverse) hprinted)
  case output_iff =>
    show _ ↔ m.current? = some .output
    rw [current, Option.some.injEq]
    constructor
    · intro htext
      by_contra hi
      rw [if_neg hi] at hprinted
      have hlength := congrArg String.length htext
      simp [Snapshot.outputText, Snapshot.cellText, Snapshot.ofMachine, hprinted, Latin1.decode]
        at hlength
    · intro hi
      rw [if_pos hi] at hprinted
      simp [Snapshot.outputText, Snapshot.cellText, Snapshot.ofMachine, hprinted, Latin1.decode,
        cell]
  case get_eq =>
    intro index hne
    exact (h.get_eq index).trans (if_neg hne)
  case size_le =>
    show m.tape.size ≤ m'.tape.size
    rw [h.size_eq]
    split
    · exact Nat.le_max_left _ _
    · exact Nat.le_refl _
  case le_inputPosition =>
    show m.inputPosition ≤ m'.inputPosition
    omega
  case inputPosition_le =>
    show m'.inputPosition ≤ m.inputPosition + 1
    omega

/-- A call leads from one snapshot to the next unless it fails in place of an instruction. -/
theorem Call.precedes (call : Call) (current : m.current? ≠ none)
    (h : ∀ fault, (call.make m).2 = .failed fault → fault.followsEffect = true) :
    (Snapshot.ofMachine m).Precedes (.ofMachine (call.make m).1) := by
  have hcount : (call.make m).1.stepCount = m.stepCount + 1 := by
    have hspec := call.make_spec m
    generalize call.requestsStop m = requestsStop at hspec
    generalize (call.make m).1 = m' at hspec
    generalize (call.make m).2 = answer at hspec h
    cases hspec with
    | ended hnone => exact absurd hnone current
    | declined refusal =>
      have := h _ rfl
      rw [refusal.followsEffect_eq] at this
      contradiction
    | unserved failure =>
      have := h _ rfl
      contradiction
    | executed _ count => exact count
  obtain ⟨i, hi, effect⟩ := Call.executed hcount
  exact effect.precedes hi

end Machine

namespace Recorder

open Machine

variable {r : Recorder} {cap : Nat}

/-! ### One instruction -/

/-- A recorder whose snapshots are one instruction apart. Unless it has ended, the last of them shows its machine. -/
structure Linked (r : Recorder) : Prop where
  last_eq : r.isFinished = false → r.last? = some (.ofMachine r.machine)
  chain : r.snapshots.toList.IsChain Snapshot.Precedes

theorem linked_load (p : Program) (l : Limits) (cap : Nat) (κ : Clock) :
    (load p l cap κ).Linked :=
  ⟨fun _ ↦ rfl, List.isChain_singleton _⟩

theorem Linked.startClock (h : r.Linked) : r.startClock.Linked := ⟨h.last_eq, h.chain⟩

private theorem Linked.keep (h : r.Linked) (hfinished : r.isFinished = false) {m : Machine}
    (hm : (Snapshot.ofMachine r.machine).Precedes (.ofMachine m)) (ending : Option Ending)
    (time : Nat) : ({ r.keep m with ending, time } : Recorder).Linked := by
  refine ⟨fun _ ↦ Array.back?_push, ?_⟩
  show (r.snapshots.push (.ofMachine m)).toList.IsChain _
  have hlast : r.snapshots.toList.getLast? = some (.ofMachine r.machine) := by
    rw [Array.getLast?_toList]
    exact h.last_eq hfinished
  rw [Array.toList_push]
  refine h.chain.append (List.isChain_singleton _) ?_
  intro s hs t ht
  rw [hlast, Option.mem_some_iff] at hs
  rw [List.head?_cons, Option.mem_some_iff] at ht
  rw [← hs, ← ht]
  exact hm

/-- A request for one instruction adds the snapshot behind it, if any. -/
theorem Linked.afterCall (h : r.Linked) (hpending : r.Pending) (call : Call) :
    (r.afterCall call).Linked := by
  unfold Recorder.afterCall blocked?
  cases hfinished : r.isFinished with
  | true => exact h
  | false =>
    rw [if_neg Bool.false_ne_true]
    by_cases hfull : r.cap ≤ r.size
    · rw [if_pos hfull]
      exact ⟨nofun, h.chain⟩
    rw [if_neg hfull, timeStep_eq]
    have hprecedes := call.precedes (hpending hfinished)
    generalize (call.make r.machine).1 = m at hprecedes
    generalize (call.make r.machine).2 = status at hprecedes
    cases status with
    | more | finished => exact h.keep hfinished (hprecedes nofun) _ _
    | failed fault =>
      dsimp only [note]
      cases heffect : fault.followsEffect with
      | true =>
        refine h.keep hfinished (hprecedes fun fault' hfault ↦ ?_) _ _
        rwa [← Status.failed.inj hfault]
      | false => exact ⟨nofun, h.chain⟩

/-! ### All requests -/

/-- Whatever is asked of a recorder, its snapshots stay one instruction apart. -/
theorem linked_makeAll (p : Program) (l : Limits) (cap : Nat) (κ : Clock) (feed : Feed)
    (requests : List Request) : (makeAll requests (load p l cap κ, feed)).1.Linked := by
  refine (makeAll_preserves (P := fun s ↦ InStep cap s.1 ∧ s.1.Linked) ?_ ?_ ?_ requests
    ⟨inStep_load p l cap κ, linked_load p l cap κ⟩).2
  · intro r feed ⟨hstep, hlinked⟩
    rw [forward_fst]
    exact ⟨hstep.moves (hstep.pending.moves .step), hlinked.afterCall hstep.pending .step⟩
  · intro r feed ⟨hstep, hlinked⟩
    rw [forwardFed_fst]
    exact ⟨hstep.moves (hstep.pending.moves (.stepFed feed)),
      hlinked.afterCall hstep.pending (.stepFed feed)⟩
  · intro r feed ⟨hstep, hlinked⟩
    exact ⟨hstep.startClock, hlinked.startClock⟩

/-! ### Numbers of a recording -/

theorem Linked.pairwise (h : r.Linked) : r.snapshots.toList.Pairwise Snapshot.Grows :=
  List.isChain_iff_pairwise.mp (h.chain.imp fun _ _ ↦ Snapshot.Precedes.grows)

/-- No snapshot is wider than the last one. -/
theorem Linked.maxCells_eq (h : r.Linked) {last : Snapshot} (hlast : r.last? = some last) :
    r.record.maxCells = max Record.minCells last.tape.size := by
  have hlast' : r.snapshots.toList.getLast? = some last := by
    rw [Array.getLast?_toList]
    exact hlast
  obtain ⟨front, hfront⟩ := List.getLast?_eq_some_iff.mp hlast'
  have hpairwise := h.pairwise
  rw [hfront, List.pairwise_append] at hpairwise
  have hle : front.foldl (fun widest s ↦ max widest s.tape.size) 0 ≤ last.tape.size := by
    refine List.foldlRecOn (motive := (· ≤ last.tape.size)) front _ (Nat.zero_le _) fun widest hwidest s hs ↦ ?_
    have hgrows := hpairwise.2.2 s hs last List.mem_cons_self
    exact Nat.max_le.mpr ⟨hwidest, hgrows.size_le⟩
  show max (r.snapshots.foldl _ 0) Record.minCells = _
  rw [← Array.foldl_toList, hfront, List.foldl_append, List.foldl_cons, List.foldl_nil,
    Nat.max_eq_right hle, Nat.max_comm]

end Recorder

/-- The report on a record, with `cells` for the number of cells and `steps` for the number of instructions. -/
def Record.layoutWith (r : Record) (cells steps : Nat) : Json.Layout :=
  .object [
    ("input", .string r.program.text),
    ("userInput", .string r.userInput),
    ("max_cells", .number cells),
    ("steps", .array (r.snapshots.toList.map Snapshot.layout)),
    ("stats", .object ([("totalSteps", .number steps)] ++
      (r.executionTime?.map fun time ↦ ("executionTime", Json.Layout.number time)).toList ++ [
      ("maxMemoryUsed", .number cells),
      ("completed", .bool r.completed),
      ("terminationReason", .string r.cause.name)] ++
      (r.message?.map fun message ↦ ("error", Json.Layout.string message)).toList))]

namespace Recorder

/-- A recording in which one instruction stands between each snapshot and the next. -/
structure Consecutive (r : Recorder) : Prop where
  precedes : ∀ i s t, r.get? i = some s → r.get? (i + 1) = some t → s.Precedes t
  /-- The output of a snapshot begins with the output of every snapshot before. -/
  output : ∀ i j s t, i < j → r.get? i = some s → r.get? j = some t →
    ∃ rest, t.outputText = s.outputText ++ rest
  /-- The report shows fifteen cells, or those of the last snapshot if they are more. It counts one instruction less
  than there are snapshots. -/
  report : ∃ last, r.last? = some last ∧
    r.record.maxCells = max 15 last.tape.size ∧ r.record.totalSteps = r.size - 1 ∧
    r.record.layout = r.record.layoutWith (max 15 last.tape.size) (r.size - 1)

/-- Whatever is asked of a recorder, and in whichever order, each of its snapshots differs from the one before by what one
instruction can do. -/
theorem snapshots_differ_by_one_instruction (p : Program) (l : Limits) (cap : Nat) (κ : Clock)
    (feed : Feed) (requests : List Request) :
    Consecutive (makeAll requests (load p l cap κ, feed)).1 := by
  have hlinked := linked_makeAll p l cap κ feed requests
  have hstep := ((inStep_load p l cap κ).continues (s := (load p l cap κ, feed)) requests).inStep
  generalize (makeAll requests (load p l cap κ, feed)).1 = r at hlinked hstep
  have hget (i : Nat) (s : Snapshot) (hs : r.get? i = some s) :
      ∃ hi : i < r.snapshots.toList.length, r.snapshots.toList[i] = s := by
    rw [get?, ← Array.getElem?_toList] at hs
    exact List.getElem?_eq_some_iff.mp hs
  constructor
  case precedes =>
    intro i s t hs ht
    obtain ⟨hi, rfl⟩ := hget i s hs
    obtain ⟨hi', rfl⟩ := hget (i + 1) t ht
    exact List.isChain_iff_getElem.mp hlinked.chain i hi'
  case output =>
    intro i j s t hij hs ht
    obtain ⟨hi, rfl⟩ := hget i s hs
    obtain ⟨hj, rfl⟩ := hget j t ht
    exact (List.pairwise_iff_getElem.mp hlinked.pairwise i j hi hj hij).output
  case report =>
    obtain ⟨last, hlast, -⟩ := hstep.last
    have hcells := hlinked.maxCells_eq hlast
    refine ⟨last, hlast, hcells, rfl, ?_⟩
    show r.record.layoutWith r.record.maxCells r.record.totalSteps = _
    rw [hcells]
    rfl

/-- Twenty moves allocate nothing. The byte behind them is read from a feed and printed. -/
theorem snapshots_widen_behind_twenty_moves :
    let p := Program.ofText ">>>>>>>>>>>>>>>>>>>>,."
    let r := (makeAll [.seek 20, .forwardFed, .recordAll] (load p {} 100, .ofBytes [65])).1
    (r.snapshots.toList.map (·.tape.size)).drop 20 = [0, 21, 21] ∧ r.record.maxCells = 21 ∧
      Consecutive r := by
  intro p r
  have hconsecutive : Consecutive r :=
    snapshots_differ_by_one_instruction p {} 100 .standard (.ofBytes [65])
      [.seek 20, .forwardFed, .recordAll]
  exact ⟨by decide +kernel, by decide +kernel, hconsecutive⟩

end Recorder

end TapeLang
