import TapeLang.Proofs.Codec.Pieces

/-!
# Runs of symbols

A text is made of runs of instruction symbols, as long as they can be, and of
other characters between them (`runs_induction`). Each run is cut into pieces on
its own. So packing leaves just two kinds of characters as they are
(`singleton_mem_pieces_iff`): those that are no symbols, and the last symbol of
a run that does not fill its grams by one symbol.
-/

namespace TapeLang.Codec

/-- A part of a text made of symbols, not empty, with no symbol in front of it or behind it. -/
structure MaximalRun (run text : List Char) : Prop where
  /-- There is a symbol in it. -/
  ne_nil : run ≠ []
  /-- There is nothing but symbols in it. -/
  isCode : IsCode run
  /-- The symbols do not go on to either side. -/
  split : ∃ before after, text = before ++ run ++ after ∧
    (∀ c ∈ before.getLast?, ¬Instruction.isSymbol c) ∧ ∀ c ∈ after.head?, ¬Instruction.isSymbol c

theorem apart_of_getLast {text more : List Char}
    (h : ∀ c ∈ text.getLast?, ¬Instruction.isSymbol c) : Apart text more :=
  fun c hc _ _ hboth ↦ h c hc hboth.1

theorem apart_of_head {text more : List Char} (h : ∀ c ∈ more.head?, ¬Instruction.isSymbol c) :
    Apart text more :=
  fun _ _ d hd hboth ↦ h d hd hboth.2

/-! ## Runs of any property -/

section Property

variable {p : Char → Prop}

/-- A part of a text made of characters with a property, not empty, with no such character in front of it or behind
it. -/
structure RunOf (p : Char → Prop) (run text : List Char) : Prop where
  /-- There is a character in it. -/
  ne_nil : run ≠ []
  /-- All its characters have the property. -/
  forall_mem : ∀ c ∈ run, p c
  /-- The run does not go on to either side. -/
  split : ∃ before after, text = before ++ run ++ after ∧
    (∀ c ∈ before.getLast?, ¬p c) ∧ ∀ c ∈ after.head?, ¬p c

/-- A run of the second of two texts is one of both together, if no run goes across the place where they meet. -/
theorem RunOf.append_left {run text before : List Char} (h : RunOf p run text)
    (hapart : ∀ c ∈ before.getLast?, ∀ d ∈ text.head?, ¬(p c ∧ p d)) :
    RunOf p run (before ++ text) := by
  obtain ⟨left, right, rfl, hleft, hright⟩ := h.split
  refine ⟨h.ne_nil, h.forall_mem, before ++ left, right, by simp, ?_, hright⟩
  cases left with
  | nil =>
    -- the run begins the second text, and the first text does not go on there
    obtain ⟨d, rest, rfl⟩ := List.exists_cons_of_ne_nil h.ne_nil
    have hd : p d := h.forall_mem d List.mem_cons_self
    intro c hc hp
    rw [List.append_nil] at hc
    exact hapart c hc d rfl ⟨hp, hd⟩
  | cons d left =>
    -- the run does not begin the second text, so what is in front of it there stays in front of it
    intro c hc
    rw [List.getLast?_append_of_ne_nil _ (List.cons_ne_nil d left)] at hc
    exact hleft c hc

open Classical in
/-- A text is empty, or it begins with a character without the property, or with a run. -/
@[elab_as_elim]
theorem runs_induction {motive : List Char → Prop} (nil : motive [])
    (other : ∀ c rest, ¬p c → motive rest → motive (c :: rest))
    (run : ∀ front rest, front ≠ [] → (∀ c ∈ front, p c) → (∀ c ∈ rest.head?, ¬p c) →
      motive rest → motive (front ++ rest)) :
    ∀ text, motive text
  | [] => nil
  | c :: rest => by
    by_cases hc : p c
    · have hsplit : (c :: rest).takeWhile (p ·) ++ (c :: rest).dropWhile (p ·) = c :: rest :=
        List.takeWhile_append_dropWhile
      have hne : (c :: rest).takeWhile (p ·) ≠ [] := by simp [hc]
      have hshorter : ((c :: rest).dropWhile (p ·)).length < (c :: rest).length := by
        have hsum := congrArg List.length hsplit
        have hpos := List.length_pos_iff.mpr hne
        rw [List.length_append] at hsum
        omega
      rw [← hsplit]
      refine run _ _ hne ?_ ?_ (runs_induction nil other run _)
      · intro d hd
        exact of_decide_eq_true (List.all_eq_true.mp List.all_takeWhile d hd)
      · intro d hd
        have hstop := List.head?_dropWhile_not (p ·) (c :: rest)
        rw [Option.mem_def] at hd
        simpa [hd] using hstop
    · exact other c rest hc (runs_induction nil other run rest)
termination_by text => text.length
decreasing_by
  · exact hshorter
  · exact Nat.lt_succ_self rest.length

end Property

/-! ## Runs of symbols -/

theorem maximalRun_iff {run text : List Char} :
    MaximalRun run text ↔ RunOf (Instruction.isSymbol ·) run text :=
  ⟨fun h ↦ ⟨h.ne_nil, h.isCode, h.split⟩, fun h ↦ ⟨h.ne_nil, h.forall_mem, h.split⟩⟩

/-- A run of symbols of the second of two texts that are apart is one of both together. -/
theorem MaximalRun.append_left {run text before : List Char} (h : MaximalRun run text)
    (hapart : Apart before text) : MaximalRun run (before ++ text) :=
  maximalRun_iff.mpr ((maximalRun_iff.mp h).append_left hapart)

/-- The pieces of a run of symbols are pieces of the text. -/
theorem MaximalRun.mem_pieces {run text w : List Char} (h : MaximalRun run text)
    (hw : w ∈ pieces run) : w ∈ pieces text := by
  obtain ⟨before, after, rfl, hbefore, hafter⟩ := h.split
  rw [List.append_assoc, (apart_of_getLast hbefore).pieces_append,
    (apart_of_head hafter).pieces_append]
  simp [hw]

/-- A character that is no symbol is a piece. -/
theorem singleton_mem_pieces {text : List Char} {c : Char} (hc : c ∈ text)
    (hother : ¬Instruction.isSymbol c) : [c] ∈ pieces text := by
  obtain ⟨before, after, rfl⟩ := List.append_of_mem hc
  have hbefore : Apart before ([c] ++ after) := apart_of_head (by simpa using hother)
  have hafter : Apart [c] after := apart_of_getLast (by simpa using hother)
  rw [← List.singleton_append, hbefore.pieces_append, hafter.pieces_append, pieces_singleton]
  simp

/-- A piece with a symbol in it is a piece of a run of symbols. -/
theorem exists_maximalRun_of_mem_pieces {text w : List Char} {c : Char} (hw : w ∈ pieces text)
    (hc : c ∈ w) (hsymbol : Instruction.isSymbol c) :
    ∃ run, MaximalRun run text ∧ w ∈ pieces run := by
  induction text using runs_induction (p := (Instruction.isSymbol ·)) with
  | nil => simp at hw
  | other d rest hother ih =>
    have hapart : Apart [d] rest := apart_of_getLast (by simpa using hother)
    rw [← List.singleton_append, hapart.pieces_append, pieces_singleton, List.mem_append] at hw
    obtain hw | hw := hw
    · rw [List.mem_singleton] at hw
      subst hw
      rw [List.mem_singleton] at hc
      exact absurd (hc ▸ hsymbol) hother
    · obtain ⟨run, hrun, hmem⟩ := ih hw
      exact ⟨run, hrun.append_left hapart, hmem⟩
  | run code rest hne hcode hrest ih =>
    have hapart : Apart code rest := apart_of_head hrest
    rw [hapart.pieces_append, List.mem_append] at hw
    obtain hw | hw := hw
    · exact ⟨code, ⟨hne, hcode, [], rest, rfl, by simp, hrest⟩, hw⟩
    · obtain ⟨run, hrun, hmem⟩ := ih hw
      exact ⟨run, hrun.append_left hapart, hmem⟩

/-- Symbols that fill their grams leave no piece of one character. -/
theorem IsCode.singleton_notMem_pieces {code : List Char} (hcode : IsCode code)
    (hlength : code.length % maxGram ≠ 1) (c : Char) : [c] ∉ pieces code := by
  intro hmem
  have hgram := hcode.isSome_token?_pieces_iff.mpr hlength [c] hmem
  rw [token?_singleton] at hgram
  contradiction

/-- In a run of symbols just the last one can be a piece of its own. -/
theorem IsCode.singleton_mem_pieces_iff {code : List Char} (hcode : IsCode code) {c : Char} :
    [c] ∈ pieces code ↔ code.length % maxGram = 1 ∧ code.getLast? = some c := by
  by_cases hlength : code.length % maxGram = 1
  · obtain ⟨init, last, rfl, hfull⟩ := exists_concat_of_length_mod hlength
    have hinit : IsCode init := fun d hd ↦ hcode d (List.mem_append_left _ hd)
    have hnot := hinit.singleton_notMem_pieces (ne_of_eq_of_ne hfull Nat.zero_ne_one) c
    rw [hinit.pieces_concat hfull, List.mem_append, List.mem_singleton, List.getLast?_concat]
    simp only [hnot, hlength, List.cons.injEq, Option.some.injEq, and_true, true_and, false_or,
      eq_comm]
  · have hnot := hcode.singleton_notMem_pieces hlength c
    simp [hnot, hlength]

/-- The characters that packing leaves as they are. -/
theorem singleton_mem_pieces_iff {text : List Char} {c : Char} :
    [c] ∈ pieces text ↔
      (c ∈ text ∧ ¬Instruction.isSymbol c) ∨
        ∃ run, MaximalRun run text ∧ run.length % maxGram = 1 ∧ run.getLast? = some c := by
  constructor
  · intro h
    by_cases hsymbol : Instruction.isSymbol c
    · obtain ⟨run, hrun, hmem⟩ :=
        exists_maximalRun_of_mem_pieces h (List.mem_singleton_self c) hsymbol
      exact .inr ⟨run, hrun, hrun.isCode.singleton_mem_pieces_iff.mp hmem⟩
    · refine .inl ⟨?_, hsymbol⟩
      rw [← flatten_pieces text]
      exact List.mem_flatten_of_mem h (List.mem_singleton_self c)
  · rintro (⟨hc, hother⟩ | ⟨run, hrun, hlast⟩)
    · exact singleton_mem_pieces hc hother
    · exact hrun.mem_pieces (hrun.isCode.singleton_mem_pieces_iff.mpr hlast)

end TapeLang.Codec
