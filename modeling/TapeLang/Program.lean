import TapeLang.Instruction

/-!
# Programs

A program is a sequence of instructions. Reading one from text keeps the
instruction symbols and drops every other character, so writing a program and
reading it back gives the same program (`ofText_text`).
-/

namespace TapeLang

/-- A sequence of instructions. -/
structure Program where
  /-- The instructions, indexed from zero. -/
  code : Array Instruction
  deriving DecidableEq, Inhabited

namespace Program

def ofList (code : List Instruction) : Program := ⟨code.toArray⟩

def toList (p : Program) : List Instruction := p.code.toList

/-- The program a text holds: its instruction symbols, without the commentary between them. -/
def ofText (text : String) : Program :=
  ofList (text.toList.filterMap Instruction.ofSymbol?)

def symbols (p : Program) : List Char := p.toList.map Instruction.symbol

/-- The program as text, one symbol for each instruction. -/
def text (p : Program) : String := String.ofList p.symbols

def size (p : Program) : Nat := p.code.size

def get? (p : Program) (position : Nat) : Option Instruction := p.code[position]?

@[simp] theorem toList_ofList (code : List Instruction) : (ofList code).toList = code := rfl

@[simp] theorem length_toList (p : Program) : p.toList.length = p.size := rfl

/-- Programs with the same instructions are equal. -/
theorem ext_toList {p q : Program} (h : p.toList = q.toList) : p = q := by
  cases p
  cases q
  exact congrArg Program.mk (Array.toList_inj.mp h)

/-- Access to a position is access to the list of instructions. -/
theorem get?_eq_toList (p : Program) (position : Nat) : p.get? position = p.toList[position]? := by
  simp [get?, toList]

/-- No instruction is lost or added when the program is written out and read back. -/
theorem ofText_text (p : Program) : ofText p.text = p := by
  apply ext_toList
  have h : Instruction.ofSymbol? ∘ Instruction.symbol = some :=
    funext Instruction.ofSymbol?_symbol
  rw [ofText, text, symbols, toList_ofList, String.toList_ofList, List.filterMap_map, h,
    List.filterMap_some]

end Program

end TapeLang
