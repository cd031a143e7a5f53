import TapeLang.Proofs.Codec.RoundTrip
import TapeLang.Proofs.Command.Texts

/-!
# Unpacking what was packed

The packed text of a program goes from one command to the other as bytes, with
a line end behind it. Nothing is lost on the way: the text is read from its
bytes, no token is a line end, so just the one behind the text is dropped, and
the program comes back from its tokens (`packed_program_comes_back`).
-/

namespace TapeLang.Command

/-- A packed program in which no symbol is left over is made of tokens. -/
theorem isToken_of_mem_compress {code : List Char} (hcode : Codec.IsCode code)
    (hlength : code.length % Codec.maxGram ≠ 1) : ∀ c ∈ Codec.compress code, Codec.IsToken c := by
  intro c hc
  rw [Codec.compress_eq_flatMap_pieces] at hc
  obtain ⟨w, hw, hc⟩ := List.mem_flatMap.mp hc
  obtain ⟨token, htoken⟩ :=
    Option.isSome_iff_exists.mp (hcode.isSome_token?_pieces_iff.mpr hlength w hw)
  rw [Codec.packPiece_of_some htoken, List.mem_singleton] at hc
  exact ⟨w, hc ▸ htoken⟩

/-- Of a line without line ends in it the line end behind it is dropped. -/
theorem dropLineEnds_line {line : List Char} (h : ∀ c ∈ line, c ≠ '\n') :
    dropLineEnds (String.ofList line ++ "\n") = line := by
  have hreverse : ∀ c ∈ line.reverse.head?, ¬decide (c = '\n') = true := by
    intro c hc heq
    exact h c (List.mem_reverse.mp (List.mem_of_mem_head? hc)) (of_decide_eq_true heq)
  have hdrop : line.reverse.dropWhile (· = '\n') = line.reverse := by
    cases hline : line.reverse with
    | nil => rfl
    | cons c rest =>
      rw [hline] at hreverse
      rw [List.dropWhile_cons, if_neg (hreverse c rfl)]
  have hlist : (String.ofList line ++ "\n").toList = line ++ ['\n'] := by simp
  rw [dropLineEnds, hlist, List.reverse_append, List.reverse_singleton, List.singleton_append,
    List.dropWhile_cons, if_pos (by decide), hdrop, List.reverse_reverse]

/-- A single line is printed with a line end behind it. -/
theorem output_ofLines_singleton (line : String) :
    (Transcript.ofLines [line]).output = (line ++ "\n").toUTF8.toList := by
  simp [Transcript.ofLines, Transcript.bytesOf, String.join]

/-- Unpacking the line that packing prints gives the line with the program. -/
theorem decompressText_compressed {text : String} (h : (Program.ofText text).size % 4 ≠ 1) :
    decompressText (String.ofList (Codec.compress (Program.ofText text).symbols) ++ "\n") =
      .ofLines [(Program.ofText text).text] := by
  have hcode := Codec.isCode_symbols (Program.ofText text)
  have hlength : (Program.ofText text).symbols.length % Codec.maxGram ≠ 1 := by
    rwa [Codec.length_symbols]
  have hline : ∀ c ∈ Codec.compress (Program.ofText text).symbols, c ≠ '\n' := by
    rintro c hc rfl
    exact Codec.not_isToken_newline (isToken_of_mem_compress hcode hlength _ hc)
  rw [decompressText, dropLineEnds_line hline, hcode.decompress_compress_iff.mpr hlength]
  rfl

/-- What is printed when a program is packed is unpacked to the program, from a file or from the standard input, if the
length of the program does not leave 1 when it is divided by 4. Both commands end without an error. -/
theorem packed_program_comes_back {args : List String} {w : Surroundings} {κ : Clock}
    {source : Source} {verbose : Bool} {text : String}
    (hargs : Invocation.ofArguments? args = some ⟨.compress source, verbose⟩)
    (hread : source.read w = .ok text) (hsize : (Program.ofText text).size % 4 ≠ 1) :
    ∃ packed, perform? args w κ = some packed ∧ packed.exitCode = 0 ∧ packed.error = none ∧
      ∀ (args' : List String) (w' : Surroundings) (κ' : Clock) (source' : Source)
          (verbose' : Bool),
        Invocation.ofArguments? args' = some ⟨.decompress source', verbose'⟩ →
        source'.Holds w' packed.output →
        ∃ unpacked, perform? args' w' κ' = some unpacked ∧ unpacked.exitCode = 0 ∧
          unpacked.error = none ∧
          unpacked.output = ((Program.ofText text).text ++ "\n").toUTF8.toList := by
  have hcompress (t : Thunk Transition.Table) :
      Action.perform t w κ (.compress source) = compressText text := by
    rw [Action.perform, onSource, hread]
  refine ⟨_, by rw [perform?, hargs, Option.map_some], ?_, ?_, ?_⟩
  · rw [exitCode_perform, hcompress]
    rfl
  · rw [error_perform, hcompress]
    rfl
  intro args' w' κ' source' verbose' hargs' hholds
  rw [output_perform, hcompress, compressText, output_ofLines_singleton] at hholds
  have hdecompress (t : Thunk Transition.Table) :
      Action.perform t w' κ' (.decompress source') = .ofLines [(Program.ofText text).text] := by
    rw [Action.perform, onSource, Source.read_of_holds hholds]
    exact decompressText_compressed hsize
  refine ⟨_, by rw [perform?, hargs', Option.map_some], ?_, ?_, ?_⟩
  · rw [exitCode_perform, hdecompress]
    rfl
  · rw [error_perform, hdecompress]
    rfl
  · rw [output_perform, hdecompress, output_ofLines_singleton]

/-- A program of six instructions with a comment in front comes back by the standard input and by a file. -/
theorem packed_program_comes_back_both_ways :
    let nothing : Surroundings := ⟨.empty, fun _ ↦ none⟩
    let piped (bytes : ByteArray) : Surroundings := ⟨bytes, fun _ ↦ none⟩
    let saved (bytes : ByteArray) : Surroundings := ⟨.empty, fun _ ↦ some bytes⟩
    (Program.ofText "a+[-]>.").size % 4 ≠ 1 ∧
      ∃ packed, perform? ["compress", "-e", "a+[-]>."] nothing = some packed ∧
        ∀ reading ∈ [(["decompress"], piped packed.output.toByteArray),
            (["decompress", "packed"], saved packed.output.toByteArray)],
          ∃ unpacked, perform? reading.1 reading.2 = some unpacked ∧ unpacked.exitCode = 0 ∧
            unpacked.output = "+[-]>.\n".toUTF8.toList := by
  intro nothing piped saved
  have hsize : (Program.ofText "a+[-]>.").size % 4 ≠ 1 := by decide +kernel
  have htext : (Program.ofText "a+[-]>.").text = "+[-]>." := by decide +kernel
  have hcompress : Invocation.ofArguments? ["compress", "-e", "a+[-]>."] =
      some ⟨.compress (.inline "a+[-]>."), false⟩ := by decide +kernel
  have hinput : Invocation.ofArguments? ["decompress"] =
      some ⟨.decompress .standardInput, false⟩ := by decide +kernel
  have hfile : Invocation.ofArguments? ["decompress", "packed"] =
      some ⟨.decompress (.file "packed"), false⟩ := by decide +kernel
  obtain ⟨packed, hpacked, -, -, hback⟩ :=
    packed_program_comes_back (w := nothing) (κ := .standard) hcompress rfl hsize
  rw [htext] at hback
  refine ⟨hsize, packed, hpacked, List.forall_mem_cons.mpr ⟨?_, List.forall_mem_singleton.mpr ?_⟩⟩
  · obtain ⟨unpacked, hunpacked, hexit, -, houtput⟩ := hback _ (piped _) .standard _ _ hinput rfl
    exact ⟨unpacked, hunpacked, hexit, houtput⟩
  · obtain ⟨unpacked, hunpacked, hexit, -, houtput⟩ := hback _ (saved _) .standard _ _ hfile rfl
    exact ⟨unpacked, hunpacked, hexit, houtput⟩

end TapeLang.Command
