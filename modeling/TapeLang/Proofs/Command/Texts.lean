import TapeLang.Command.Perform

/-!
# Bytes of texts

What one command prints another one can read: the bytes of a text are read as
the text (`read_of_holds`), whether they come from a file or by the standard
input. Debug messages have no part in this, since hiding them changes the log
alone (`perform_frame`).
-/

namespace TapeLang.Command

/-! ### Bytes -/

-- The loop that lists the bytes of an array has listed those in front of `i` already, latest first.
private theorem toList_loop (bytes : ByteArray) (i : Nat) (listed : List UInt8) :
    ByteArray.toList.loop bytes i listed = listed.reverse ++ bytes.data.toList.drop i := by
  induction i, listed using ByteArray.toList.loop.induct bytes with
  | case1 i listed hi ih =>
    have hi' : i < bytes.data.toList.length := hi
    have hget : bytes.get! i = bytes.data.toList[i] := by
      simp [ByteArray.get!, getElem!_pos bytes.data i hi]
    rw [ByteArray.toList.loop, if_pos hi, ih, List.drop_eq_getElem_cons hi', hget]
    simp
  | case2 i listed hi =>
    have hi' : bytes.data.toList.length ≤ i := Nat.le_of_not_lt hi
    rw [ByteArray.toList.loop, if_neg hi, List.drop_eq_nil_of_le hi', List.append_nil]

/-- The bytes of an array in order. -/
theorem toList_eq_data (bytes : ByteArray) : bytes.toList = bytes.data.toList :=
  toList_loop bytes 0 []

/-- A text is read back from its bytes. -/
theorem fromUTF8?_toUTF8 (text : String) : String.fromUTF8? text.toUTF8 = some text := by
  rw [String.toUTF8, String.fromUTF8?, dif_pos text.isValidUTF8]
  rfl

/-- The bytes of a text are read as the text. -/
theorem fromUTF8?_toList_toUTF8 (text : String) :
    String.fromUTF8? text.toUTF8.toList.toByteArray = some text := by
  have hbytes : text.toUTF8.toList.toByteArray = text.toUTF8 := by
    apply ByteArray.ext
    rw [List.data_toByteArray, toList_eq_data, Array.toArray_toList]
  rw [hbytes, fromUTF8?_toUTF8]

/-! ### Sources that hold bytes -/

/-- The source is a file with these bytes, or the standard input with these bytes. -/
def Source.Holds (w : Surroundings) (bytes : List UInt8) : Source → Prop
  | .inline _ => False
  | .file path => w.file path = some bytes.toByteArray
  | .standardInput => w.standardInput = bytes.toByteArray

/-- A source that holds the bytes of a text is read as the text. -/
theorem Source.read_of_holds {w : Surroundings} {text : String} {source : Source}
    (h : source.Holds w text.toUTF8.toList) : source.read w = .ok text := by
  cases source with
  | inline => exact False.elim h
  | file path =>
    have hfile : w.file path = some text.toUTF8.toList.toByteArray := h
    rw [Source.read, hfile, Option.bind_some, fromUTF8?_toList_toUTF8]
  | standardInput =>
    have hinput : w.standardInput = text.toUTF8.toList.toByteArray := h
    rw [Source.read, hinput, fromUTF8?_toList_toUTF8]

/-! ### Debug messages -/

/-- Hidden debug messages leave the output, the error and the exit code. -/
theorem perform_frame (t : Thunk Transition.Table) (w : Surroundings) (κ : Clock)
    (i : Invocation) :
    { i.perform t w κ with messages := (i.action.perform t w κ).messages } =
      i.action.perform t w κ := by
  unfold Invocation.perform
  dsimp only
  split <;> rfl

theorem output_perform (t : Thunk Transition.Table) (w : Surroundings) (κ : Clock)
    (i : Invocation) :
    (i.perform t w κ).output = (i.action.perform t w κ).output :=
  (congrArg Transcript.output (perform_frame t w κ i) :)

theorem error_perform (t : Thunk Transition.Table) (w : Surroundings) (κ : Clock)
    (i : Invocation) :
    (i.perform t w κ).error = (i.action.perform t w κ).error :=
  (congrArg Transcript.error (perform_frame t w κ i) :)

theorem exitCode_perform (t : Thunk Transition.Table) (w : Surroundings) (κ : Clock)
    (i : Invocation) :
    (i.perform t w κ).exitCode = (i.action.perform t w κ).exitCode :=
  (congrArg Transcript.exitCode (perform_frame t w κ i) :)

end TapeLang.Command
