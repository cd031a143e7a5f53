import TapeLang.Proofs.Limits.Values
import Mathlib.Data.List.Forall2

/-!
# Reading limits the grammar allows

What the reader makes of an object or a list of which the parts are known. The
options read so far are the state: a member of one of the four names fills in
one of them, any other member leaves them (`turns_fits`), and so a whole object
fills in what its names give (`readMembers_fits`) and a list what its first
elements give (`readList_writes`). A name that was met before is refused,
whatever stands behind it (`readMembers_repeated`).
-/

namespace TapeLang

open Json Limits

/-- The member of an object fits the options: under the name of a limit it has the value the options give, under any
other name some value. -/
def LimitOptions.Fits (o : LimitOptions) (m : String × List Char) : Prop :=
  (∀ key : LimitKey, m.1 = key.name → o.Writes key m.2) ∧
    ((∀ key : LimitKey, m.1 ≠ key.name) → Written .value m.2)

theorem LimitOptions.fits_known {o : LimitOptions} {key : LimitKey} {value : List Char}
    (h : o.Writes key value) : o.Fits (key.name, value) :=
  ⟨fun _ hname ↦ LimitKey.name_injective hname ▸ h, fun hne ↦ absurd rfl (hne key)⟩

theorem LimitOptions.fits_unknown {o : LimitOptions} {name : String} {value : List Char}
    (hname : LimitKey.ofName? name = none) (h : Written .value value) : o.Fits (name, value) := by
  refine ⟨fun key heq ↦ ?_, fun _ ↦ h⟩
  obtain rfl : name = key.name := heq
  simp at hname

namespace Limits

variable {o o₀ : LimitOptions} {key : LimitKey} {blanks text rest : List Char}

/-! ### Members -/

theorem readColon_append (hblanks : Blank blanks) (rest : List Char) :
    readColon (blanks ++ ':' :: rest) = .ok rest := by
  rw [readColon, next?_blank_cons hblanks (by decide)]
  exact if_pos rfl

/-- A member turns these options into those, or it is not what is wanted, wherever it stands. -/
def Turns (o₀ : LimitOptions) (m : String × List Char) (o₁ : Option LimitOptions) : Prop :=
  ∀ between between' rest, Blank between → Blank between' → Stops rest →
    readMember o₀ m.1 (between ++ ':' :: (between' ++ (m.2 ++ rest))) = answer o₁ rest

/-- A limit that was not given before is filled in. -/
theorem turns_writes {value : List Char} (h : o₀.has key = false) (hvalue : o.Writes key value) :
    Turns o₀ (key.name, value) (some (o.overlay [key] o₀)) := by
  intro between between' rest hbetween hbetween' hrest
  simp only [readMember, LimitKey.ofName?_name, h, Bool.false_eq_true, if_false,
    readColon_append hbetween]
  exact readOption_writes hbetween' hvalue hrest

/-- A member of another name is passed over. -/
theorem turns_unknown {m : String × List Char} (h : ∀ key : LimitKey, m.1 ≠ key.name)
    (hvalue : Written .value m.2) : Turns o₀ m (some o₀) := by
  intro between between' rest hbetween hbetween' hrest
  simp only [readMember, LimitKey.ofName?_eq_none h, readColon_append hbetween,
    skipValue_append hbetween' hvalue hrest]
  rfl

/-- A name that was met before is refused, whatever its value. -/
theorem turns_repeated (h : o₀.has key = true) (value : List Char) :
    Turns o₀ (key.name, value) none := by
  intro between between' rest _ _ _
  simp only [readMember, LimitKey.ofName?_name, h, if_true]
  rfl

/-! ### Objects -/

theorem nextName_blank_append (first : Bool) (hblanks : Blank blanks) (text : List Char) :
    nextName first (blanks ++ text) = nextName first text := by
  rw [nextName, nextName, next?_blank_append hblanks]

theorem nextName_quote (hblanks : Blank blanks) (rest : List Char) :
    nextName true (blanks ++ '"' :: rest) = .ok (.more rest) := by
  rw [nextName, next?_blank_cons hblanks (by decide)]
  rfl

theorem nextName_comma (hblanks : Blank blanks) (rest : List Char) :
    nextName false (',' :: (blanks ++ '"' :: rest)) = .ok (.more rest) := by
  rw [nextName, next?_cons (by decide)]
  simp [next?_blank_cons hblanks (show isBlank '"' = false by decide)]

theorem readMembers_close (o₀ : LimitOptions) (first : Bool) (hblanks : Blank blanks)
    (rest : List Char) : readMembers o₀ first (blanks ++ '\x7d' :: rest) = .ok (o₀, rest) := by
  have hnext : nextName first (blanks ++ '\x7d' :: rest) = .ok (.closed rest) := by
    rw [nextName, next?_blank_cons hblanks (by decide)]
    rfl
  rw [readMembers, hnext]

/-- How the reader goes on in an object depends on the text only by the next name. -/
theorem readMembers_congr {first first' : Bool} {text text' : List Char}
    (h : nextName first text = nextName first' text') :
    readMembers o₀ first text = readMembers o₀ first' text' := by
  rw [readMembers, readMembers.eq_1 o₀ first', h]

/-- One member is read. -/
theorem readMembers_member {m : String × List Char} {o₁ : Option LimitOptions}
    (hm : MemberText m text) (hturns : Turns o₀ m o₁) (hrest : Stops rest) :
    readMembers o₀ true (text ++ rest) =
      match o₁ with
      | some o₁ => readMembers o₁ false rest
      | none => .error .unsuitable := by
  obtain @⟨name, value, body, before, between, between', after, hbefore, hbody, hbetween,
    hbetween', hafter⟩ := hm
  have hmember := hturns between between' (after ++ rest) hbetween hbetween'
    (hrest.blank_append hafter)
  simp only [List.append_assoc, List.cons_append]
  rw [readMembers, nextName_quote hbefore]
  dsimp only
  rw [string_spelling hbody]
  dsimp only
  rw [String.ofList_toList, hmember]
  cases o₁ with
  | none => rfl
  | some o₁ => exact readMembers_congr (nextName_blank_append false hafter rest)

/-- Behind a comma an object goes on as at its beginning. -/
theorem readMembers_comma {ms : List (String × List Char)} (h : Separated MemberText ms text)
    (rest : List Char) :
    readMembers o₀ false (',' :: (text ++ rest)) = readMembers o₀ true (text ++ rest) := by
  obtain ⟨before, inside, hbefore, htext⟩ :
      ∃ before inside, Blank before ∧ text ++ rest = before ++ '"' :: inside := by
    cases h with
    | last hm | more hm =>
      obtain @⟨_, _, _, before, _, _, _, hbefore⟩ := hm
      simp only [List.append_assoc, List.cons_append]
      exact ⟨before, _, hbefore, rfl⟩
  rw [htext]
  exact readMembers_congr ((nextName_comma hbefore _).trans (nextName_quote hbefore _).symm)

/-- The limits that are named by the members of an object. -/
def keysOf (ms : List (String × List Char)) : List LimitKey :=
  ms.filterMap fun m ↦ LimitKey.ofName? m.1

theorem keysOf_cons (m : String × List Char) (ms : List (String × List Char)) :
    keysOf (m :: ms) = keysOf [m] ++ keysOf ms :=
  List.filterMap_append (l := [m])

theorem keysOf_known (key : LimitKey) (value : List Char) : keysOf [(key.name, value)] = [key] := by
  simp [keysOf]

theorem keysOf_unknown {m : String × List Char} (h : ∀ key : LimitKey, m.1 ≠ key.name) :
    keysOf [m] = [] := by
  simp [keysOf, LimitKey.ofName?_eq_none h]

theorem count_keysOf (ms : List (String × List Char)) (key : LimitKey) :
    (keysOf ms).count key = (ms.map Prod.fst).count key.name := by
  induction ms with
  | nil => rfl
  | cons m ms ih =>
    rw [keysOf_cons, List.count_append, ih, List.map_cons, List.count_cons, Nat.add_comm]
    obtain ⟨name, value⟩ := m
    obtain ⟨key', rfl⟩ | hne := LimitKey.known_or_unknown name
    · simp [keysOf_known, LimitKey.name_injective.eq_iff, List.count_singleton]
    · simp [keysOf_unknown (m := (name, value)) hne, hne key]

theorem turns_fits {m : String × List Char} (h : o.Fits m)
    (hnew : ∀ key ∈ keysOf [m], o₀.has key = false) :
    Turns o₀ m (some (o.overlay (keysOf [m]) o₀)) := by
  obtain ⟨name, value⟩ := m
  obtain ⟨hknown, hunknown⟩ := h
  obtain ⟨key, rfl⟩ | hne := LimitKey.known_or_unknown name
  · rw [keysOf_known] at hnew ⊢
    exact turns_writes (hnew key List.mem_cons_self) (hknown key rfl)
  · rw [keysOf_unknown hne, LimitOptions.overlay_nil]
    exact turns_unknown hne (hunknown hne)

/-- The members of an object fill in the limits they name. -/
theorem readMembers_fits {ms : List (String × List Char)} (h : Separated MemberText ms text)
    (hfits : ∀ m ∈ ms, o.Fits m) (honce : (keysOf ms).Nodup)
    (hnew : ∀ key ∈ keysOf ms, o₀.has key = false) (rest : List Char) :
    readMembers o₀ true (text ++ '\x7d' :: rest) = .ok (o.overlay (keysOf ms) o₀, rest) := by
  induction h generalizing o₀ with
  | @last m text hm =>
    have hturns := turns_fits (hfits m List.mem_cons_self) hnew
    have hstops : Stops ('\x7d' :: rest) := stops_close .object rest
    rw [readMembers_member hm hturns hstops]
    exact @readMembers_close [] _ false nofun rest
  | @more m ms text text' hm hms ih =>
    rw [keysOf_cons] at honce hnew ⊢
    have hturns := turns_fits (hfits m List.mem_cons_self)
      fun key hkey ↦ hnew key (List.mem_append_left _ hkey)
    have hnew' : ∀ key ∈ keysOf ms, (o.overlay (keysOf [m]) o₀).has key = false := by
      intro key hkey
      have hnot : key ∉ keysOf [m] :=
        fun hmem ↦ (List.nodup_append.mp honce).2.2 key hmem key hkey rfl
      rw [LimitOptions.has_overlay, if_neg hnot]
      exact hnew key (List.mem_append_right _ hkey)
    rw [List.append_assoc, List.cons_append, readMembers_member hm hturns (stops_comma _)]
    dsimp only
    rw [readMembers_comma hms, LimitOptions.overlay_append]
    exact ih (fun m' hm' ↦ hfits m' (List.mem_cons_of_mem _ hm')) (List.nodup_append.mp honce).2.1
      hnew'

/-- A member that does not end the reading as malformed, whatever kind of value it gives to a limit. Under any other
name the grammar is enough, since nobody asks for the value. -/
def Legible (m : String × List Char) : Prop :=
  (∀ key : LimitKey, m.1 = key.name → Readable m.2) ∧
    ((∀ key : LimitKey, m.1 ≠ key.name) → Written .value m.2)

/-- What fits some options can be read. -/
theorem legible_fits {m : String × List Char} (h : o.Fits m) : Legible m :=
  ⟨fun key hname ↦ readable_writes (h.1 key hname), h.2⟩

/-- Such a member is refused, or nothing is lost by it and its name counts as met. -/
theorem turns_legible {m : String × List Char} (h : Legible m) (o₀ : LimitOptions) :
    ∃ o₁ : Option LimitOptions, Turns o₀ m o₁ ∧
      ∀ o₂ ∈ o₁, ∀ key : LimitKey, o₀.has key = true ∨ m.1 = key.name → o₂.has key = true := by
  obtain ⟨name, value⟩ := m
  obtain ⟨hknown, hunknown⟩ := h
  obtain ⟨key, rfl⟩ | hne := LimitKey.known_or_unknown name
  · by_cases hhas : o₀.has key = true
    · exact ⟨none, turns_repeated hhas value, nofun⟩
    obtain ⟨o₁, hgains, hread⟩ := readOption_readable (hknown key rfl) o₀ key
    refine ⟨o₁, ?_, fun o₂ ho₂ key' hkey' ↦ ?_⟩
    · intro between between' rest hbetween hbetween' hrest
      simp only [readMember, LimitKey.ofName?_name, hhas, readColon_append hbetween]
      exact hread between' rest hbetween' hrest
    · rcases hkey' with hkey' | hname
      · exact (hgains o₂ ho₂).2 key' hkey'
      · rw [← LimitKey.name_injective hname]
        exact (hgains o₂ ho₂).1
  · refine ⟨some o₀, turns_unknown hne (hunknown hne), ?_⟩
    rintro _ ⟨⟩ key (hkey | hname)
    · exact hkey
    · exact absurd hname (hne key)

/-- The name of a limit that was met before ends the reading. What stands behind the name, and behind the member, has
no part in it. -/
theorem readMembers_repeated {before behind : List (String × List Char)} {value : List Char}
    (h : Separated MemberText (before ++ (key.name, value) :: behind) text)
    (hbefore : ∀ m ∈ before, Legible m)
    (hagain : o₀.has key = true ∨ key.name ∈ before.map Prod.fst) (rest : List Char) :
    readMembers o₀ true (text ++ '\x7d' :: rest) = .error .unsuitable := by
  have hstops : Stops ('\x7d' :: rest) := stops_close .object rest
  induction before generalizing o₀ text with
  | nil =>
    have hhas : o₀.has key = true := by simpa using hagain
    cases h with
    | last hm => exact readMembers_member hm (turns_repeated hhas value) hstops
    | more hm hms =>
      rw [List.append_assoc, List.cons_append]
      exact readMembers_member hm (turns_repeated hhas value) (stops_comma _)
  | cons m before ih =>
    obtain ⟨o₁, hturns, hhas⟩ := turns_legible (hbefore m List.mem_cons_self) o₀
    obtain ⟨ms, hms⟩ : ∃ ms, ms = before ++ (key.name, value) :: behind := ⟨_, rfl⟩
    rw [List.cons_append, ← hms] at h
    cases h with
    | last => simp at hms
    | @more _ _ text text' hm htail =>
      rw [List.append_assoc, List.cons_append, readMembers_member hm hturns (stops_comma _)]
      cases o₁ with
      | none => rfl
      | some o₁ =>
        dsimp only
        rw [readMembers_comma htail]
        refine ih (hms ▸ htail) (fun m' hm' ↦ hbefore m' (List.mem_cons_of_mem _ hm')) ?_
        rw [List.map_cons, List.mem_cons] at hagain
        rcases hagain with hagain | hname | hmem
        · exact .inl (hhas o₁ rfl key (.inl hagain))
        · exact .inl (hhas o₁ rfl key (.inr hname.symm))
        · exact .inr hmem

/-! ### Lists -/

theorem readList_close (o₀ : LimitOptions) (first : Bool) (hblanks : Blank blanks)
    (rest : List Char) (keys : List LimitKey) :
    readList o₀ first (blanks ++ ']' :: rest) keys = .ok (o₀, rest) := by
  have hnext : next? (blanks ++ ']' :: rest) = some (']', rest) :=
    next?_blank_cons hblanks (by decide) rest
  cases keys with
  | nil => simp [readList, hnext]
  | cons key keys => simp [readList, nextElement, hnext]

/-- An element does not begin with the bracket that closes the list. -/
theorem exists_next_element {value : List Char} (h : ElementText value text)
    (hvalue : o.Writes key value) (rest : List Char) :
    ∃ c after, next? (text ++ rest) = some (c, after) ∧ c ≠ ']' := by
  obtain @⟨before, after, hbefore, -⟩ := h
  obtain ⟨c, tail, hnext, hc⟩ := (readable_writes hvalue).written.exists_next (after ++ rest)
  refine ⟨c, tail, ?_, hc .list⟩
  rw [List.append_assoc, List.append_assoc, next?_blank_append hbefore, hnext]

/-- An element is read at the beginning of a list. -/
theorem readList_element {value : List Char} (h : ElementText value text)
    (hvalue : o.Writes key value) (hrest : Stops rest) (keys : List LimitKey) :
    ∃ blanks, Blank blanks ∧
      readList o₀ true (text ++ rest) (key :: keys) =
        readList (o.overlay [key] o₀) false (blanks ++ rest) keys := by
  obtain ⟨c, tail, hnext, hc⟩ := exists_next_element h hvalue rest
  have hmore : nextElement true (text ++ rest) = .ok (.more (text ++ rest)) := by
    simp [nextElement, hnext, hc]
  rw [readList, hmore]
  obtain @⟨before, after, hbefore, hafter⟩ := h
  refine ⟨after, hafter, ?_⟩
  dsimp only
  rw [List.append_assoc, List.append_assoc,
    readOption_writes hbefore hvalue (hrest.blank_append hafter)]

/-- Behind a comma a list goes on as at its beginning. -/
theorem readList_comma {values : List (List Char)} {keys : List LimitKey}
    (h : Separated ElementText values text) (hvalues : List.Forall₂ o.Writes keys values)
    (hblanks : Blank blanks) (rest : List Char) (more : List LimitKey) :
    readList o₀ false (blanks ++ ',' :: (text ++ rest)) (keys ++ more) =
      readList o₀ true (text ++ rest) (keys ++ more) := by
  obtain ⟨key, keys, rfl, c, after, hnext, hc⟩ : ∃ key keys', keys = key :: keys' ∧
      ∃ c after, next? (text ++ rest) = some (c, after) ∧ c ≠ ']' := by
    cases h with
    | last hvalue =>
      obtain ⟨key, keys, hwrites, -, rfl⟩ := List.forall₂_cons_right_iff.mp hvalues
      exact ⟨key, keys, rfl, exists_next_element hvalue hwrites rest⟩
    | more hvalue =>
      obtain ⟨key, keys, hwrites, -, rfl⟩ := List.forall₂_cons_right_iff.mp hvalues
      rw [List.append_assoc]
      exact ⟨key, keys, rfl, exists_next_element hvalue hwrites _⟩
  have hcomma := next?_blank_cons hblanks (show isBlank ',' = false by decide) (text ++ rest)
  simp [readList, nextElement, hcomma, hnext, hc]

/-- The elements of a list fill in the first limits. -/
theorem readList_writes {values : List (List Char)} {keys : List LimitKey}
    (h : Separated ElementText values text) (hvalues : List.Forall₂ o.Writes keys values)
    (rest : List Char) (more : List LimitKey) :
    readList o₀ true (text ++ ']' :: rest) (keys ++ more) = .ok (o.overlay keys o₀, rest) := by
  induction h generalizing o₀ keys with
  | @last value text hvalue =>
    obtain ⟨key, _, hwrites, hnil, rfl⟩ := List.forall₂_cons_right_iff.mp hvalues
    obtain rfl := List.forall₂_nil_right_iff.mp hnil
    have hstops : Stops (']' :: rest) := stops_close .list rest
    obtain ⟨blanks, hblanks, hread⟩ :=
      @readList_element o o₀ key _ _ value hvalue hwrites hstops more
    rw [List.singleton_append, hread]
    exact readList_close _ false hblanks rest more
  | @more value values text text' hvalue htail ih =>
    obtain ⟨key, keys, hwrites, hwrites', rfl⟩ := List.forall₂_cons_right_iff.mp hvalues
    obtain ⟨blanks, hblanks, hread⟩ := @readList_element o o₀ key _ _ value hvalue hwrites
      (stops_comma (text' ++ ']' :: rest)) (keys ++ more)
    have hover : o.overlay (key :: keys) o₀ = o.overlay keys (o.overlay [key] o₀) :=
      LimitOptions.overlay_append o o₀ [key] keys
    rw [List.append_assoc, List.cons_append, List.cons_append, hread,
      readList_comma htail hwrites' hblanks, hover]
    exact ih hwrites'

/-! ### Whole texts -/

/-- An object with nothing but blanks around it is read. -/
theorem read_object (hblanks : Blank blanks) {after : List Char} (hafter : Blank after)
    (h : readMembers {} true text = .ok (o, after)) :
    Limits.read (blanks ++ '\x7b' :: text) = .ok o := by
  have hnext : next? (blanks ++ '\x7b' :: text) = some ('\x7b', text) :=
    next?_blank_cons hblanks (by decide) text
  have hall : after.all isBlank = true := List.all_eq_true.mpr (isBlank_of_blank hafter)
  simp [Limits.read, readValue, hnext, h, hall]

theorem read_object_error (hblanks : Blank blanks) {e : ReadError}
    (h : readMembers {} true text = .error e) :
    Limits.read (blanks ++ '\x7b' :: text) = .error e := by
  have hnext : next? (blanks ++ '\x7b' :: text) = some ('\x7b', text) :=
    next?_blank_cons hblanks (by decide) text
  simp [Limits.read, readValue, hnext, h]

/-- A list with nothing but blanks around it is read. -/
theorem read_list (hblanks : Blank blanks) {after : List Char} (hafter : Blank after)
    (h : readList {} true text LimitKey.all = .ok (o, after)) :
    Limits.read (blanks ++ '[' :: text) = .ok o := by
  have hnext : next? (blanks ++ '[' :: text) = some ('[', text) :=
    next?_blank_cons hblanks (by decide) text
  have hall : after.all isBlank = true := List.all_eq_true.mpr (isBlank_of_blank hafter)
  simp [Limits.read, readValue, hnext, h, hall]

end Limits

end TapeLang
