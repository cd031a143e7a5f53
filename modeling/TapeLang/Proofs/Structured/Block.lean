import TapeLang.Proofs.Program.Matching

/-!
# Blocks

A block is the tree of a balanced program: basic instructions, and loops with
their bodies. Parsing reads the instructions from the right and keeps the blocks
that are still to be enclosed. It succeeds exactly on the code of a block
(`parse_eq_some_iff`), and these are the programs without unmatched brackets
(`exists_parse_iff`).
-/

namespace TapeLang

/-- The basic instructions, those that are no bracket. -/
inductive Basic where
  | increment
  | decrement
  | left
  | right
  | output
  | input
  deriving DecidableEq

namespace Basic

def instruction : Basic → Instruction
  | increment => .increment
  | decrement => .decrement
  | left => .left
  | right => .right
  | output => .output
  | input => .input

/-- The basic instruction that an instruction is, if it is no bracket. -/
def ofInstruction? : Instruction → Option Basic
  | .increment => some increment
  | .decrement => some decrement
  | .left => some left
  | .right => some right
  | .output => some output
  | .input => some input
  | .loopStart | .loopEnd => none

/-- What is read as a basic instruction is that instruction. -/
theorem eq_of_ofInstruction? {i : Instruction} {a : Basic} (h : ofInstruction? i = some a) :
    i = a.instruction := by
  cases i <;> cases h <;> rfl

theorem instruction_ne_loopStart (a : Basic) : a.instruction ≠ .loopStart := by
  cases a <;> exact Instruction.noConfusion

theorem instruction_ne_loopEnd (a : Basic) : a.instruction ≠ .loopEnd := by
  cases a <;> exact Instruction.noConfusion

end Basic

/-- A sequence of basic instructions and loops. -/
inductive Block where
  /-- The end of the sequence. -/
  | done
  | basic (a : Basic) (rest : Block)
  | loop (body rest : Block)
  deriving DecidableEq

namespace Block

variable {b c body rest : Block} {blocks : List Block} {instrs : List Instruction} {p : Program}

/-- The instructions of a block, with brackets around the body of each loop. -/
def code : Block → List Instruction
  | done => []
  | basic a rest => a.instruction :: rest.code
  | loop body rest => .loopStart :: (body.code ++ .loopEnd :: rest.code)

def append : Block → Block → Block
  | done, c => c
  | basic a rest, c => basic a (rest.append c)
  | loop body rest, c => loop body (rest.append c)

/-- Take one more instruction in front of the blocks parsed so far: first the one that goes on here, then those
behind the closing brackets that are still to be opened. -/
def push (i : Instruction) (blocks : List Block) : Option (List Block) :=
  match i, blocks with
  | .loopEnd, blocks => some (done :: blocks)
  | .loopStart, body :: rest :: blocks => some (loop body rest :: blocks)
  | i, b :: blocks => (Basic.ofInstruction? i).map fun a ↦ basic a b :: blocks
  | _, [] => none

/-- The blocks of a sequence of instructions whose closing brackets may lack their opening ones. -/
def parseOpen : List Instruction → Option (List Block)
  | [] => some [done]
  | i :: instrs => (parseOpen instrs).bind (push i)

/-- The block of a sequence of instructions, if its brackets are balanced. -/
def parse (instrs : List Instruction) : Option Block :=
  match parseOpen instrs with
  | some [b] => some b
  | _ => none

/-- Nothing follows. -/
@[simp] theorem append_done (b : Block) : b.append done = b := by
  induction b with
  | done => rfl
  | basic a rest ih => rw [append, ih]
  | loop body rest _ ih => rw [append, ih]

/-- The code of one block behind another is the one code behind the other. -/
@[simp] theorem code_append (b c : Block) : (b.append c).code = b.code ++ c.code := by
  induction b with
  | done => rfl
  | basic a rest ih => rw [append, code, code, ih, List.cons_append]
  | loop body rest _ ih =>
    rw [append, code, code, ih, List.cons_append, List.append_assoc, List.cons_append]

def times (a : Basic) : Nat → Block
  | 0 => done
  | n + 1 => basic a (times a n)

/-- The instruction is repeated. -/
theorem code_times (a : Basic) (n : Nat) :
    (times a n).code = List.replicate n a.instruction := by
  induction n with
  | zero => rfl
  | succ n ih => rw [times, code, ih, List.replicate_succ]

/-! ### Parsing -/

@[simp] theorem push_basic (a : Basic) (b : Block) (blocks : List Block) :
    push a.instruction (b :: blocks) = some (basic a b :: blocks) := by
  cases a <;> rfl

/-- A block in front of what is parsed goes in front of its first block. -/
theorem parseOpen_code_append (b : Block) (h : parseOpen instrs = some (c :: blocks)) :
    parseOpen (b.code ++ instrs) = some (b.append c :: blocks) := by
  induction b generalizing instrs c blocks with
  | done => exact h
  | basic a rest ih =>
    rw [Block.code, List.cons_append, parseOpen, ih h]
    exact push_basic a _ blocks
  | loop body rest ihbody ih =>
    have hend : parseOpen (.loopEnd :: (rest.code ++ instrs)) =
        some (done :: rest.append c :: blocks) := by
      rw [parseOpen, ih h]
      rfl
    rw [Block.code, List.cons_append, List.append_assoc, List.cons_append, parseOpen, ihbody hend,
      append_done]
    rfl

/-- The code of the blocks parsed so far, with the closing brackets between them. -/
def codeOpen (blocks : List Block) : List Instruction :=
  match blocks with
  | [] => []
  | [b] => b.code
  | b :: blocks => b.code ++ .loopEnd :: codeOpen blocks

private theorem codeOpen_cons_cons (b c : Block) (blocks : List Block) :
    codeOpen (b :: c :: blocks) = b.code ++ .loopEnd :: codeOpen (c :: blocks) := rfl

private theorem codeOpen_push {i : Instruction} {b : Block} {bs cs : List Block}
    (h : push i (b :: bs) = some cs) :
    codeOpen cs = i :: codeOpen (b :: bs) ∧ ∃ c cs', cs = c :: cs' := by
  by_cases hend : i = .loopEnd
  · subst hend
    cases h
    exact ⟨rfl, _, _, rfl⟩
  cases hi : Basic.ofInstruction? i with
  | some a =>
    obtain rfl := Basic.eq_of_ofInstruction? hi
    rw [push_basic] at h
    cases h
    refine ⟨?_, _, _, rfl⟩
    cases bs <;> rfl
  | none =>
    have hstart : i = .loopStart := by cases i <;> first | rfl | contradiction
    subst hstart
    cases bs with
    | nil => contradiction
    | cons rest bs =>
      cases h
      refine ⟨?_, _, _, rfl⟩
      cases bs with
      | nil => rfl
      | cons d bs =>
        simp only [codeOpen_cons_cons, Block.code, List.cons_append, List.append_assoc]

private theorem codeOpen_of_parseOpen (h : parseOpen instrs = some blocks) :
    codeOpen blocks = instrs ∧ ∃ b bs, blocks = b :: bs := by
  induction instrs generalizing blocks with
  | nil =>
    cases h
    exact ⟨rfl, _, _, rfl⟩
  | cons i instrs ih =>
    obtain ⟨cs, hcs, hpush⟩ := Option.bind_eq_some_iff.mp h
    obtain ⟨hcode, b, bs, rfl⟩ := ih hcs
    obtain ⟨hi, hne⟩ := codeOpen_push hpush
    exact ⟨by rw [hi, hcode], hne⟩

/-- Parsing finds a block exactly in its own code. -/
theorem parse_eq_some_iff : parse instrs = some b ↔ b.code = instrs := by
  constructor
  · intro h
    unfold parse at h
    split at h
    · next c hparse =>
      obtain rfl := Option.some.inj h
      exact (codeOpen_of_parseOpen hparse).1
    · contradiction
  · rintro rfl
    have hparse := parseOpen_code_append b (rfl : parseOpen [] = some [done])
    rw [List.append_nil, append_done] at hparse
    rw [parse, hparse]

/-! ### Balanced programs -/

/-- The code of a block leaves the search for unmatched brackets as it was. -/
private theorem unmatchedScan_code (b : Block) (s : UnmatchedScan) :
    (b.code.foldl UnmatchedScan.next s).stack = s.stack ∧
      (b.code.foldl UnmatchedScan.next s).strays = s.strays := by
  induction b generalizing s with
  | done => exact ⟨rfl, rfl⟩
  | basic a rest ih =>
    obtain ⟨hstack, hstrays⟩ := ih (s.next a.instruction)
    rw [Block.code, List.foldl_cons, hstack, hstrays]
    cases a <;> exact ⟨rfl, rfl⟩
  | loop body rest ihbody ih =>
    obtain ⟨hstack, hstrays⟩ := ihbody (s.next .loopStart)
    rw [Block.code, List.foldl_cons, List.foldl_append, List.foldl_cons]
    generalize body.code.foldl UnmatchedScan.next (s.next .loopStart) = s' at *
    have hopen : s'.stack = s.position :: s.stack := hstack
    obtain ⟨hstack', hstrays'⟩ := ih (s'.next .loopEnd)
    rw [hstack', hstrays']
    refine ⟨?_, ?_⟩
    · change s'.stack.tail = s.stack
      rw [hopen, List.tail_cons]
    · rw [← show (s.next .loopStart).strays = s.strays from rfl, ← hstrays]
      simp only [UnmatchedScan.next, hopen]

private theorem strays_of_foldl {s : UnmatchedScan}
    (h : (instrs.foldl UnmatchedScan.next s).strays = []) : s.strays = [] := by
  induction instrs generalizing s with
  | nil => exact h
  | cons i instrs ih =>
    have hnext := ih h
    unfold UnmatchedScan.next at hnext
    dsimp only at hnext
    split at hnext
    · contradiction
    · exact hnext

-- Parsing from the right keeps one block more than there are open brackets on the left.
private theorem exists_parseOpen {s : UnmatchedScan}
    (hstrays : (instrs.foldl UnmatchedScan.next s).strays = [])
    (hstack : (instrs.foldl UnmatchedScan.next s).stack = []) :
    ∃ blocks, parseOpen instrs = some blocks ∧ blocks.length = s.stack.length + 1 := by
  induction instrs generalizing s with
  | nil =>
    have hstack : s.stack = [] := hstack
    exact ⟨[done], rfl, by rw [hstack]; rfl⟩
  | cons i instrs ih =>
    obtain ⟨blocks, hparse, hlength⟩ := ih hstrays hstack
    rw [parseOpen, hparse, Option.bind_some]
    by_cases hend : i = .loopEnd
    · subst hend
      refine ⟨done :: blocks, rfl, ?_⟩
      have hnext : (s.next .loopEnd).strays = [] := strays_of_foldl hstrays
      cases hs : s.stack with
      | nil => simp [UnmatchedScan.next, hs] at hnext
      | cons o outer =>
        rw [List.length_cons, hlength]
        simp [UnmatchedScan.next, OpenBrackets.next, hs]
    by_cases hstart : i = .loopStart
    · subst hstart
      have hlength : blocks.length = s.stack.length + 1 + 1 := hlength
      obtain ⟨body, following, rfl⟩ := List.exists_cons_of_length_eq_add_one hlength
      obtain ⟨rest, outer, rfl⟩ := List.exists_cons_of_length_eq_add_one (Nat.succ.inj hlength)
      exact ⟨loop body rest :: outer, rfl, Nat.succ.inj hlength⟩
    · have hsame : (s.next i).stack = s.stack := by
        cases i <;> first | rfl | contradiction
      rw [hsame] at hlength
      obtain ⟨b, outer, rfl⟩ := List.exists_cons_of_length_eq_add_one hlength
      obtain ⟨a, rfl⟩ : ∃ a : Basic, i = a.instruction := by
        cases i <;> first | contradiction | exact ⟨_, (Basic.eq_of_ofInstruction? rfl)⟩
      exact ⟨basic a b :: outer, push_basic a b outer, hlength⟩

/-- A program is parsed exactly if none of its brackets is unmatched. -/
theorem exists_parse_iff : (∃ b, parse p.toList = some b) ↔ p.unmatched = [] := by
  have hscan : p.code.foldl UnmatchedScan.next {} = p.toList.foldl UnmatchedScan.next {} := by
    rw [Program.toList, Array.foldl_toList]
  rw [Program.unmatched, hscan, List.append_eq_nil_iff, List.map_eq_nil_iff, List.map_eq_nil_iff,
    List.reverse_eq_nil_iff]
  constructor
  · rintro ⟨b, hb⟩
    rw [← parse_eq_some_iff.mp hb]
    obtain ⟨hstack, hstrays⟩ := unmatchedScan_code b {}
    exact ⟨hstrays, hstack⟩
  · rintro ⟨hstrays, hstack⟩
    obtain ⟨blocks, hparse, hlength⟩ := exists_parseOpen hstrays hstack
    obtain ⟨b, rfl⟩ := List.length_eq_one_iff.mp hlength
    exact ⟨b, by rw [parse, hparse]⟩

end Block

end TapeLang
