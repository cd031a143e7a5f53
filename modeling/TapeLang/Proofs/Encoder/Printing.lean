import TapeLang.Encoder
import TapeLang.Proofs.Structured.Run
import TapeLang.Proofs.Transition.Words

/-!
# Encoded programs print their text

A word prints bytes if its evaluation ends, from any store that is ready with one
value, ready with another one and with the bytes behind what was printed before
(`Prints`). The words of a sound table print nothing, an output instruction prints
the current cell, and the encoder puts these together in the order of the text
(`prints_appendBytes`). The bounds that every word keeps add up to those of the
whole program, so limits that leave room for them do not show.
-/

namespace TapeLang

/-- From every store ready with one value the word prints the bytes and ends ready with another value, within
256 visits and one cell for each instruction. -/
def Encoder.Prints (w : Transition.Word) (a b : UInt8) (bytes : List UInt8) : Prop :=
  ∃ block : Block, block.code = w.toList ∧ ∀ input s, s.Ready a →
    ∃ s', s'.Ready b ∧ s'.printed = bytes.reverse ++ s.printed ∧
      s.pointer ≤ s'.pointer ∧ s'.pointer ≤ s.pointer + w.size ∧
      Walks input s.pointer (s.pointer + w.size) (.front block) (256 * w.size) s s'

namespace Encoder

open Transition

variable {t : Table} {w w' : Word} {a b e : UInt8} {bytes rest : List UInt8}

/-- What is printed by two words, one behind the other. -/
theorem Prints.append (h : Prints w a e bytes) (h' : Prints w' e b rest) :
    Prints (w ++ w') a b (bytes ++ rest) := by
  obtain ⟨block, hcode, hprints⟩ := h
  obtain ⟨block', hcode', hprints'⟩ := h'
  refine ⟨block.append block', ?_, ?_⟩
  · rw [Block.code_append, hcode, hcode', Array.toList_append]
  · intro input s hs
    obtain ⟨m, hm, hprinted, hlower, hupper, hwalk⟩ := hprints input s hs
    obtain ⟨s', hs', hprinted', hlower', hupper', hwalk'⟩ := hprints' input m hm
    rw [Array.size_append, Nat.mul_add]
    refine ⟨s', hs', ?_, Nat.le_trans hlower hlower', by omega, ?_⟩
    · rw [hprinted', hprinted, List.reverse_append, List.append_assoc]
    · apply Walks.append
      · exact hwalk.mono (Nat.le_refl _) (by omega) (Nat.le_refl _)
      · exact hwalk'.mono hlower (by omega) (Nat.le_refl _)

/-- A word that brings a value prints nothing. -/
theorem prints_of_brings (h : Brings w a b) : Prints w a b [] := by
  obtain ⟨block, hcode, hbrings⟩ := h
  refine ⟨block, hcode, ?_⟩
  intro input s hs
  obtain ⟨q, hlower, hupper, hwalk⟩ := hbrings input s hs
  exact ⟨s.place q b, Store.ready_place hlower, rfl, hlower, hupper, hwalk⟩

/-- The cell to the right is a zero to start from. -/
theorem prints_right (a : UInt8) : Prints #[.right] a 0 [] := by
  refine ⟨.basic .right .done, rfl, ?_⟩
  intro input s hs
  refine ⟨{ s with pointer := s.pointer + 1 }, ⟨?_, ?_⟩, rfl, Nat.le_succ _, Nat.le_refl _, ?_⟩
  · exact hs.right_eq _ (Nat.lt_succ_self _)
  · intro i hi
    exact hs.right_eq i (Nat.lt_of_succ_lt hi)
  · apply Walks.mono (.basic (Nat.le_refl _) (fun _ ↦ Nat.le_refl _) .done) (Nat.le_refl _)
      (Nat.le_refl _)
    decide

/-- An output instruction prints the current cell. -/
theorem prints_output (a : UInt8) : Prints #[.output] a a [a] := by
  refine ⟨.basic .output .done, rfl, ?_⟩
  intro input s hs
  refine ⟨{ s with printed := s.cell :: s.printed }, ⟨hs.cell_eq, hs.right_eq⟩, ?_, Nat.le_refl _,
    Nat.le_add_right _ _, ?_⟩
  · rw [hs.cell_eq]
    rfl
  · apply Walks.mono (.basic (Nat.le_refl _) Basic.noConfusion .done) (Nat.le_refl _)
      (Nat.le_refl _)
    decide

/-- The word chosen for a byte prepares it. -/
theorem prints_nextWord (ht : t.Sound) (last byte : UInt8) :
    Prints (nextWord t last byte) last byte [] := by
  rcases nextWord_eq_or t last byte with heq | heq
  · rw [heq]
    exact (prints_right last).append (prints_of_brings (ht 0 byte))
  · rw [heq]
    exact prints_of_brings (ht last byte)

/-- Appending what prints some bytes to a word prints them behind its own. -/
theorem prints_appendBytes (ht : t.Sound) (h : Prints w a b bytes) (rest : List UInt8) :
    ∃ e, Prints (appendBytes t w b rest) a e (bytes ++ rest) := by
  induction rest generalizing w b bytes with
  | nil =>
    rw [List.append_nil]
    exact ⟨b, h⟩
  | cons byte rest ih =>
    have hnext := (h.append (prints_nextWord ht b byte)).append (prints_output byte)
    rw [List.append_nil, Array.append_singleton] at hnext
    obtain ⟨e, hrest⟩ := ih hnext
    rw [List.append_assoc] at hrest
    exact ⟨e, hrest⟩

/-- With room for its own length and 256 visits for each instruction, a program encoded with a sound table
comes to its end with the text printed. -/
theorem completes_encode (ht : t.Sound) (text : List Char) {l : Limits}
    (hmemory : (encode t text).size < l.maxMemory)
    (hsteps : 256 * (encode t text).size ≤ l.maxSteps) :
    ∃ block vs s, block.code = (encode t text).toList ∧ Completes block l vs s ∧
      s.output = text.map Char.toUInt8 := by
  have hstart : Prints #[] 0 0 [] := by
    refine ⟨.done, rfl, ?_⟩
    intro input s hs
    exact ⟨s, hs, rfl, Nat.le_refl _, Nat.le_refl _, .done⟩
  obtain ⟨e, block, hcode, hprints⟩ := prints_appendBytes ht hstart (text.map Char.toUInt8)
  have hready : Store.Ready {} 0 := ⟨rfl, fun _ _ ↦ rfl⟩
  obtain ⟨s, -, hprinted, -, -, vs, hevaluates, hlength, hcells⟩ := hprints l.inputBytes {} hready
  refine ⟨block, vs, s, hcode, ⟨hevaluates, Nat.le_trans hlength hsteps, ?_⟩, ?_⟩
  · rintro v hv ⟨hright, hfull⟩
    have hroom := (hcells v hv).2 hright
    have hzero : Store.pointer {} = 0 := rfl
    have hsize : (appendBytes t #[] 0 (text.map Char.toUInt8)).size = (encode t text).size := rfl
    omega
  · rw [Store.output, hprinted, List.nil_append]
    show ((text.map Char.toUInt8).reverse ++ []).reverse = text.map Char.toUInt8
    rw [List.append_nil, List.reverse_reverse]

private theorem ofUInt8_toUInt8 (c : Char) : Char.ofUInt8 c.toUInt8 = Char.ofNat (c.toNat % 256) := by
  have hval : (Char.ofUInt8 c.toUInt8).toNat = c.toNat % 256 := by
    show c.val.toUInt8.toUInt32.toNat = c.val.toNat % 256
    rw [UInt8.toNat_toUInt32, UInt32.toNat_toUInt8]
  rw [← hval, Char.ofNat_toNat]

private theorem sound_standardTable : standardTable.get.Sound := by
  rw [get_standardTable]
  exact sound_afterPasses passes

/-- The program that the table in use gives for a text prints the text. With room for its own length, 256 times
its own length in the budget and a time budget that lasts, its run ends without a fault, and its output is the
low eight bits of each character of the text, in order. -/
theorem encoded_program_prints_text (text : String) {l : Limits} {κ : Clock}
    (hmemory : (encode standardTable.get text.toList).size < l.maxMemory)
    (hsteps : 256 * (encode standardTable.get text.toList).size ≤ l.maxSteps)
    (hlasting : κ.Lasts l.timeout) :
    let run := (Machine.load (encode standardTable.get text.toList) l κ).run
    run.2 = .ok (Latin1.encode text) ∧
      run.1.outputText = String.ofList (text.toList.map fun c ↦ Char.ofNat (c.toNat % 256)) := by
  have ht := sound_standardTable
  generalize standardTable.get = t at *
  obtain ⟨block, vs, s, hcode, hcompletes, houtput⟩ := completes_encode ht text.toList hmemory hsteps
  obtain ⟨hrun, hshows, -⟩ := hcompletes.run_eq hcode hlasting
  refine ⟨?_, ?_⟩
  · rw [hrun, houtput]
    rfl
  · rw [Machine.outputText, Machine.output, hshows.printed_eq, ← Store.output, houtput, Latin1.decode,
      List.map_map]
    apply congrArg String.ofList
    exact List.map_congr_left fun c _ ↦ ofUInt8_toUInt8 c

/-- A text with a character past U+00FF, printed within limits that are just wide enough. -/
theorem encoded_program_prints_low_bytes :
    let p := encode standardTable.get "Ħi".toList
    let l : Limits := { maxMemory := p.size + 1, maxSteps := 256 * p.size, userInput := "x" }
    let κ : Clock := .standard
    (p.size < l.maxMemory ∧ 256 * p.size ≤ l.maxSteps ∧ κ.Lasts l.timeout) ∧
      (Machine.load p l κ).run.2 = .ok [38, 105] := by
  intro p l κ
  have hlimits : p.size < l.maxMemory ∧ 256 * p.size ≤ l.maxSteps ∧ κ.Lasts l.timeout :=
    ⟨Nat.lt_succ_self _, Nat.le_refl _, Clock.standard_lasts (by decide)⟩
  obtain ⟨hrun, -⟩ := encoded_program_prints_text "Ħi" hlimits.1 hlimits.2.1 hlimits.2.2
  have hbytes : Latin1.encode "Ħi" = [38, 105] := by decide
  rw [hbytes] at hrun
  exact ⟨hlimits, hrun⟩

end Encoder

end TapeLang
