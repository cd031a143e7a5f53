import TapeLang.Proofs.Limits.Reading
import TapeLang.Proofs.Command.Texts
import Mathlib.Data.List.Nodup

/-!
# Layers of limits

A file puts the limits it gives in the place of the usual ones, and the
arguments put theirs in the place of both. What a file gives is independent of
how it is written: the order of the members, the blanks, the spelling of names
and strings and whatever members of other names hold.

Main statement: `Limits.layers_in_order`.
-/

namespace TapeLang

open Json

/-- The members of an object give the options: they fit, and the name of each limit stands there once if the options
give it, and else not at all. -/
structure LimitOptions.GivenBy (o : LimitOptions) (ms : List (String × List Char)) : Prop where
  fits : ∀ m ∈ ms, o.Fits m
  once : ∀ key : LimitKey, (ms.map Prod.fst).count key.name = if o.has key then 1 else 0

/-- The limits a command starts from: those of its file, or the usual ones if there is none. -/
def Command.LimitArguments.StartsFrom (a : Command.LimitArguments) (w : Command.Surroundings)
    (l : Limits) : Prop :=
  match a.file with
  | none => l = {}
  | some path => Limits.ofFile (w.file path) = .ok l

namespace Limits

def contentOf (text : List Char) : Option ByteArray := some (String.ofList text).toUTF8

variable {o : LimitOptions} {ms : List (String × List Char)} {values : List (List Char)}
  {text : List Char}

theorem ofFile_contentOf (text : List Char) :
    ofFile (contentOf text) =
      match Limits.read text with
      | .error e => .error (.content e)
      | .ok o => .ok (o.applyTo {}) := by
  have htext : (contentOf text).bind String.fromUTF8? = some (String.ofList text) :=
    Command.fromUTF8?_toUTF8 (String.ofList text)
  cases hread : Limits.read text <;> simp [ofFile, htext, hread]

/-- The options that the members give are read. -/
theorem read_givenBy (h : Enclosed .object MemberText ms text) (hgiven : o.GivenBy ms) :
    Limits.read text = .ok o := by
  have honce : (keysOf ms).Nodup := by
    rw [List.nodup_iff_count_le_one]
    intro key
    rw [count_keysOf, hgiven.once key]
    split <;> decide
  have hover : o.overlay (keysOf ms) {} = o := by
    apply LimitOptions.overlay_of_forall
    intro key hkey
    rw [← List.count_pos_iff, count_keysOf, hgiven.once key, if_pos hkey]
    exact Nat.one_pos
  cases h with
  | @empty before between after hbefore hbetween hafter =>
    rw [← hover]
    exact read_object hbefore hafter (readMembers_close _ true hbetween after)
  | @filled _ before text after hbefore hmembers hafter =>
    have hnew : ∀ key ∈ keysOf ms, ({} : LimitOptions).has key = false := by
      rintro ⟨⟩ - <;> rfl
    have hread := readMembers_fits hmembers hgiven.fits honce hnew after
    rw [hover] at hread
    exact read_object hbefore hafter hread

/-- The options that the elements give to the first limits are read. -/
theorem read_first {k : Nat} (h : Enclosed .list ElementText values text)
    (hvalues : List.Forall₂ o.Writes (LimitKey.all.take k) values)
    (hfirst : ∀ key, o.has key = true → key ∈ LimitKey.all.take k) :
    Limits.read text = .ok o := by
  have hover : o.overlay (LimitKey.all.take k) {} = o := LimitOptions.overlay_of_forall hfirst
  cases h with
  | @empty before between after hbefore hbetween hafter =>
    rw [List.forall₂_nil_right_iff.mp hvalues, LimitOptions.overlay_nil] at hover
    rw [← hover]
    exact read_list hbefore hafter (readList_close _ true hbetween after LimitKey.all)
  | @filled _ before text after hbefore helements hafter =>
    have hread : readList {} true (text ++ ']' :: after)
        (LimitKey.all.take k ++ LimitKey.all.drop k) = .ok (o, after) := by
      rw [readList_writes helements hvalues, hover]
    rw [List.take_append_drop] at hread
    exact read_list hbefore hafter hread

/-- A limit that is given twice is not what is wanted. -/
theorem read_repeated {key : LimitKey} {before behind : List (String × List Char)}
    {value : List Char}
    (h : Enclosed .object MemberText (before ++ (key.name, value) :: behind) text)
    (hagain : key.name ∈ before.map Prod.fst) (hbefore : ∀ m ∈ before, Legible m) :
    Limits.read text = .error .unsuitable := by
  obtain ⟨ms, hms⟩ : ∃ ms, ms = before ++ (key.name, value) :: behind := ⟨_, rfl⟩
  rw [← hms] at h
  cases h with
  | empty => simp at hms
  | filled hblanks hmembers _ =>
    exact read_object_error hblanks
      (readMembers_repeated (hms ▸ hmembers) hbefore (.inr hagain) _)

/-- A file that gives options yields the usual limits with these options in their place, however its object is
written; a list of the first values yields the same as any object that gives just these. An object that names a limit
again is refused: what stands in front of the second name has to be readable, what stands behind it has no part. And the
options of the arguments are put in the place of the limits the command starts from, each of them alone. -/
theorem layers_in_order :
    (∀ (o : LimitOptions) (ms : List (String × List Char)) (text : List Char),
      Enclosed .object MemberText ms text → o.GivenBy ms →
        ofFile (contentOf text) = .ok (o.applyTo {})) ∧
    (∀ (o : LimitOptions) (k : Nat) (values : List (List Char)) (text : List Char),
      Enclosed .list ElementText values text →
      List.Forall₂ o.Writes (LimitKey.all.take k) values →
      (∀ key, o.has key = true → key ∈ LimitKey.all.take k) →
        ofFile (contentOf text) = .ok (o.applyTo {}) ∧
        ∀ (ms : List (String × List Char)) (text' : List Char),
          Enclosed .object MemberText ms text' → o.GivenBy ms →
            ofFile (contentOf text) = ofFile (contentOf text')) ∧
    (∀ (key : LimitKey) (value : List Char) (before behind : List (String × List Char))
      (text : List Char),
      Enclosed .object MemberText (before ++ (key.name, value) :: behind) text →
      key.name ∈ before.map Prod.fst → (∀ m ∈ before, Legible m) →
        ofFile (contentOf text) = .error (.content .unsuitable)) ∧
    (∀ (w : Command.Surroundings) (a : Command.LimitArguments) (l : Limits), a.StartsFrom w l →
      a.resolve w = .ok
        { timeout := a.options.timeout.getD l.timeout
          maxSteps := a.options.maxSteps.getD l.maxSteps
          maxMemory := a.options.maxMemory.getD l.maxMemory
          userInput := a.options.userInput.getD l.userInput }) := by
  refine ⟨fun o ms text h hgiven ↦ ?object, fun o k values text h hvalues hfirst ↦ ?list,
    fun key value before behind text h hagain hbefore ↦ ?twice, fun w a l hstart ↦ ?arguments⟩
  case object => rw [ofFile_contentOf, read_givenBy h hgiven]
  case list =>
    refine ⟨by rw [ofFile_contentOf, read_first h hvalues hfirst], fun ms text' h' hgiven ↦ ?_⟩
    rw [ofFile_contentOf, ofFile_contentOf, read_first h hvalues hfirst, read_givenBy h' hgiven]
  case twice => rw [ofFile_contentOf, read_repeated h hagain hbefore]
  case arguments =>
    unfold Command.LimitArguments.StartsFrom at hstart
    unfold Command.LimitArguments.resolve
    cases hfile : a.file with
    | none =>
      rw [hfile] at hstart
      obtain rfl := hstart
      rfl
    | some path =>
      rw [hfile] at hstart
      dsimp only at hstart ⊢
      rw [hstart]
      rfl

/-- An object with a member of another name and a character outside of the basic plane, a list beside the object that
holds the same, a name that is given twice, and a flag over a file. -/
theorem layers_of_four_texts :
    ofFile (contentOf
      "\x7b\"note\":[null],\"userInput\":\"\\ud83d\\ude00\",\"maxSteps\":500\x7d".toList) =
        .ok { maxSteps := 500, userInput := "😀" } ∧
    ofFile (contentOf "[7]".toList) = ofFile (contentOf "\x7b\"timeout\":7\x7d".toList) ∧
    ofFile (contentOf "\x7b\"timeout\":7,\"timeout\":8\x7d".toList) =
      .error (.content .unsuitable) ∧
    Command.LimitArguments.resolve ⟨default, fun _ ↦ contentOf "[7]".toList⟩
        { file := some "limits.json", options := { maxSteps := some 9 } } =
      .ok { timeout := 7, maxSteps := 9 } := by
  obtain ⟨hobject, hlist, htwice, harguments⟩ := layers_in_order
  have hmember (name : String) (value : List Char)
      (h : (name.toList.all fun c ↦ decide (Unescaped c)) = true) :
      MemberText (name, value) ('"' :: (name.toList ++ '"' :: ':' :: (value ++ []))) := by
    have hself : Spelling name.toList name.toList := .self (by simpa using h)
    exact @MemberText.intro name value name.toList [] [] [] [] nofun hself nofun nofun nofun
  have hseven : ({ timeout := some 7 } : LimitOptions).Writes .timeout ['7'] :=
    ⟨7, rfl, by decide, rfl⟩
  have hfits : ∀ m ∈ [("timeout", ['7'])], ({ timeout := some 7 } : LimitOptions).Fits m := by
    simp only [List.mem_singleton, forall_eq]
    exact LimitOptions.fits_known hseven
  have hlist_text : Enclosed .list ElementText [['7']] "[7]".toList :=
    @Enclosed.filled _ .list ElementText _ [] _ [] nofun
      (.last (@ElementText.intro ['7'] [] [] nofun nofun)) nofun
  have hobject_text : Enclosed .object MemberText [("timeout", ['7'])]
      "\x7b\"timeout\":7\x7d".toList :=
    @Enclosed.filled _ .object MemberText _ [] _ [] nofun
      (.last (hmember "timeout" _ rfl)) nofun
  have htwice_text : Enclosed .object MemberText [("timeout", ['7']), ("timeout", ['8'])]
      "\x7b\"timeout\":7,\"timeout\":8\x7d".toList :=
    @Enclosed.filled _ .object MemberText _ [] _ [] nofun
      (.more (hmember "timeout" _ rfl) (.last (hmember "timeout" _ rfl))) nofun
  obtain ⟨hread, hsame⟩ := hlist { timeout := some 7 } 1 _ _ hlist_text (.cons hseven .nil)
    (by rintro ⟨⟩ <;> simp [LimitOptions.has, LimitKey.all])
  refine ⟨?_, hsame _ _ hobject_text ⟨hfits, by rintro ⟨⟩ <;> decide⟩,
    htwice .timeout ['8'] [("timeout", ['7'])] [] _ htwice_text (by decide)
      fun m hm ↦ legible_fits (hfits m hm),
    harguments ⟨default, fun _ ↦ contentOf "[7]".toList⟩
      { file := some "limits.json", options := { maxSteps := some 9 } } _ hread⟩
  have hhigh : HexQuad 0xD83D ['d', '8', '3', 'd'] :=
    @HexQuad.intro 13 8 3 13 _ _ _ _ ⟨by decide, .inl rfl⟩ ⟨by decide, .inl rfl⟩
      ⟨by decide, .inl rfl⟩ ⟨by decide, .inl rfl⟩
  have hlow : HexQuad 0xDE00 ['d', 'e', '0', '0'] :=
    @HexQuad.intro 13 14 0 0 _ _ _ _ ⟨by decide, .inl rfl⟩ ⟨by decide, .inl rfl⟩
      ⟨by decide, .inl rfl⟩ ⟨by decide, .inl rfl⟩
  have hsmile : Spelling "😀".toList "\\ud83d\\ude00".toList :=
    @Spelling.pair '😀' 0xD83D 0xDE00 _ _ [] [] hhigh hlow (by decide) (by decide) (by decide)
      (by decide) (by decide) .nil
  have hnote : Written .value "[null]".toList :=
    @Written.filled .list ['n', 'u', 'l', 'l']
      (.last (@Written.item .list [] [] [] ['n', 'u', 'l', 'l'] [] nofun .list nofun
        (.word (by decide)) nofun))
  refine hobject { maxSteps := some 500, userInput := some "😀" }
    [("note", "[null]".toList), ("userInput", "\"\\ud83d\\ude00\"".toList),
      ("maxSteps", "500".toList)] _ ?_ ⟨?_, by rintro ⟨⟩ <;> decide⟩
  · exact @Enclosed.filled _ .object MemberText _ [] _ [] nofun
      (.more (hmember _ _ rfl)
        (.more (hmember _ _ rfl) (.last (hmember _ _ rfl)))) nofun
  · simp only [List.mem_cons, List.not_mem_nil, or_false, forall_eq_or_imp, forall_eq]
    exact ⟨LimitOptions.fits_unknown (by decide) hnote,
      @LimitOptions.fits_known _ .userInput _ ⟨_, rfl, _, hsmile, rfl⟩,
      @LimitOptions.fits_known _ .maxSteps _ ⟨500, rfl, by decide, rfl⟩⟩

end Limits

end TapeLang
