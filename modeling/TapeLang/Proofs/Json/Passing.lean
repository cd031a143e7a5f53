import TapeLang.Proofs.Json.Scanning

/-!
# Passing over any value

Every value the grammar allows is passed over, however deep it is nested, and
just the text behind it is left (`skipValue_append`). The reader keeps the open
brackets on a stack; what a part of a value does to the stack is read off the
part alone (`Written.skipFrom`): in front of an item stands its own bracket,
behind the items the stack below it.
-/

namespace TapeLang.Json

/-! ### Steps of the reader -/

section

variable {frames : List Frame} {frame : Frame} {c : Char} {text text' rest after : List Char}

@[simp] theorem Frame.ofOpening?_opening (frame : Frame) :
    Frame.ofOpening? frame.opening = some frame := by
  cases frame <;> rfl

theorem skipFrom_scalar (hnext : next? text = some (c, rest)) (hc : Frame.ofOpening? c = none)
    (h : skipScalar c rest = .ok after) :
    skipFrom .value frames text = skipFrom .behind frames after := by
  rw [skipFrom.eq_1, hnext]
  dsimp only
  rw [hc]
  dsimp only
  rw [h]

theorem skipFrom_empty (hnext : next? text = some (frame.opening, rest))
    (hclose : next? rest = some (frame.close, after)) :
    skipFrom .value frames text = skipFrom .behind frames after := by
  rw [skipFrom.eq_1, hnext]
  dsimp only
  rw [Frame.ofOpening?_opening]
  dsimp only
  rw [hclose]
  exact if_pos rfl

theorem skipFrom_enter (hnext : next? text = some (frame.opening, rest))
    (hfirst : next? rest = some (c, after)) (hc : c ≠ frame.close) :
    skipFrom .value frames text = skipFrom frame.next (frame :: frames) rest := by
  rw [skipFrom.eq_1, hnext]
  dsimp only
  rw [Frame.ofOpening?_opening]
  dsimp only
  rw [hfirst]
  exact if_neg hc

theorem skipFrom_name {values : List Char} (hnext : next? text = some ('"', rest))
    (hname : string false rest = .ok (values, after)) (hcolon : next? after = some (':', text')) :
    skipFrom .name frames text = skipFrom .value frames text' := by
  rw [skipFrom.eq_2]
  split
  · next heq => simp [hnext] at heq
  · next heq =>
    obtain rfl : rest = _ := by simpa [hnext] using heq
    rw [hname]
    dsimp only
    split
    · next heq => simp [hcolon] at heq
    · next heq =>
      obtain rfl : text' = _ := by simpa [hcolon] using heq
      rfl
    · next hne heq => exact absurd (heq.symm.trans hcolon) (by simpa using hne _)
  · next hne heq => exact absurd (heq.symm.trans hnext) (by simpa using hne _)

/-- Inside of brackets the reader looks for the next character that is not blank. -/
theorem skipFrom_behind (h : next? text = next? text') :
    skipFrom .behind (frame :: frames) text = skipFrom .behind (frame :: frames) text' := by
  rw [skipFrom.eq_4, skipFrom.eq_4, h]

theorem skipFrom_comma (hnext : next? text = some (',', rest)) :
    skipFrom .behind (frame :: frames) text = skipFrom frame.next (frame :: frames) rest := by
  rw [skipFrom.eq_4, hnext]
  exact if_pos rfl

theorem skipFrom_close (hnext : next? text = some (frame.close, rest)) :
    skipFrom .behind (frame :: frames) text = skipFrom .behind frames rest := by
  have hcomma : frame.close ≠ ',' := by cases frame <;> decide
  rw [skipFrom.eq_4, hnext]
  dsimp only
  rw [if_neg hcomma, if_pos rfl]

end

/-! ### Scalars -/

/-- A fixed word is read to its end. -/
theorem literal_append (word rest : List Char) : literal word (word ++ rest) = .ok rest := by
  induction word with
  | nil => rfl
  | cons c word ih => rw [List.cons_append, literal, if_pos rfl, ih]

theorem skipScalar_digit {c : Char} (h : c.isDigit = true) (rest : List Char) :
    skipScalar c rest = Numeral.skip (c :: rest) := by
  unfold skipScalar
  split
  case h_6 => exact if_pos h
  all_goals simp at h

theorem ofOpening?_of_isDigit {c : Char} (h : c.isDigit = true) : Frame.ofOpening? c = none := by
  unfold Frame.ofOpening?
  split
  case h_3 => rfl
  all_goals simp at h

/-! ### Values -/

-- What a value or an item begins with: it is not blank, and it closes no bracket.
private theorem next?_of_first {c : Char} (h : isBlank c = false ∧ c ≠ ']' ∧ c ≠ '\x7d')
    (text : List Char) :
    ∃ c' after, next? (c :: text) = some (c', after) ∧ ∀ frame : Frame, c' ≠ frame.close :=
  ⟨c, text, next?_cons h.1 text, fun frame ↦ by cases frame <;> simp [Frame.close, h]⟩

private theorem first_of_isDigit {c : Char} (h : c.isDigit = true) :
    isBlank c = false ∧ c ≠ ']' ∧ c ≠ '\x7d' := by
  refine ⟨isBlank_of_isDigit h, ?_, ?_⟩ <;> rintro rfl <;> simp at h

/-- No part of a value begins with a bracket that closes. -/
theorem Written.exists_next {part : Part} {text : List Char} (h : Written part text)
    (rest : List Char) :
    ∃ c after, next? (text ++ rest) = some (c, after) ∧ ∀ frame : Frame, c ≠ frame.close := by
  induction h generalizing rest with
  | word hword =>
    simp only [words, List.mem_cons, List.not_mem_nil, or_false] at hword
    rcases hword with rfl | rfl | rfl <;> exact next?_of_first (by decide) _
  | @number n text hnumber =>
    obtain ⟨d, ds, rfl, hd⟩ := Numeral.exists_digit_cons hnumber
    rw [Numeral.sign, List.append_assoc]
    split
    · exact next?_of_first (by decide) _
    · exact next?_of_first (first_of_isDigit hd) _
  | string => exact next?_of_first (by decide) _
  | empty frame | @filled frame => cases frame <;> exact next?_of_first (by decide) _
  | item hbefore hheading hbetween _ _ ih =>
    simp only [List.append_assoc]
    rw [next?_blank_append hbefore]
    cases hheading with
    | list =>
      rw [List.nil_append, next?_blank_append hbetween]
      exact ih _
    | object => exact next?_of_first (by decide) _
  | last _ ih => exact ih rest
  | more _ _ ih =>
    rw [List.append_assoc]
    exact ih _

/-- What the reader does with a part of a value that stands in front of a text. -/
def Passes : Part → List Char → Prop
  | .value, text => ∀ frames blanks rest, Blank blanks → Stops rest →
    skipFrom .value frames (blanks ++ (text ++ rest)) = skipFrom .behind frames rest
  | .item frame, text => ∀ frames rest, Stops rest →
    skipFrom frame.next (frame :: frames) (text ++ rest) = skipFrom .behind (frame :: frames) rest
  | .items frame, text => ∀ frames rest,
    skipFrom frame.next (frame :: frames) (text ++ frame.close :: rest) =
      skipFrom .behind frames rest

-- A scalar is settled by its first character.
private theorem passes_scalar {c : Char} {text : List Char} (hblank : isBlank c = false)
    (hc : Frame.ofOpening? c = none)
    (h : ∀ rest, Stops rest → skipScalar c (text ++ rest) = .ok rest) :
    Passes .value (c :: text) :=
  fun _ _ rest hblanks hrest ↦
    skipFrom_scalar (next?_blank_cons hblanks hblank _) hc (h rest hrest)

theorem stops_comma (text : List Char) : Stops (',' :: text) := stops_cons (by decide) text

theorem stops_close (frame : Frame) (text : List Char) : Stops (frame.close :: text) :=
  stops_cons (by cases frame <;> decide) text

theorem isBlank_opening (frame : Frame) : isBlank frame.opening = false := by
  cases frame <;> decide

theorem isBlank_close (frame : Frame) : isBlank frame.close = false := by
  cases frame <;> decide

/-- Whatever the grammar allows is passed over. -/
theorem Written.passes {part : Part} {text : List Char} (h : Written part text) :
    Passes part text := by
  induction h with
  | word hword =>
    simp only [words, List.mem_cons, List.not_mem_nil, or_false] at hword
    rcases hword with rfl | rfl | rfl <;>
      exact passes_scalar (by decide) (by decide) fun rest _ ↦ literal_append _ rest
  | @number n text hnumber =>
    rw [Numeral.sign]
    split
    · exact passes_scalar (by decide) (by decide) fun rest hrest ↦ Numeral.skip_append hnumber hrest
    · obtain ⟨d, ds, rfl, hd⟩ := Numeral.exists_digit_cons hnumber
      refine passes_scalar (isBlank_of_isDigit hd) (ofOpening?_of_isDigit hd) fun rest hrest ↦ ?_
      rw [skipScalar_digit hd]
      exact Numeral.skip_append hnumber hrest
  | string hbody =>
    refine passes_scalar (by decide) (by decide) fun rest _ ↦ ?_
    obtain ⟨values, hvalues⟩ := string_body hbody rest
    rw [List.append_assoc]
    simp [skipScalar, hvalues]
  | empty frame hblanks =>
    intro frames blanks' rest hblanks' _
    rw [List.cons_append, List.append_assoc]
    exact skipFrom_empty (next?_blank_cons hblanks' (isBlank_opening frame) _)
      (next?_blank_cons hblanks (isBlank_close frame) _)
  | @filled frame text hitems ih =>
    intro frames blanks rest hblanks _
    obtain ⟨c, after, hfirst, hc⟩ := hitems.exists_next (frame.close :: rest)
    rw [List.cons_append, List.append_assoc, List.singleton_append,
      skipFrom_enter (next?_blank_cons hblanks (isBlank_opening frame) _) hfirst (hc frame)]
    exact ih frames rest
  | @item frame before heading between value after hbefore hheading hbetween _ hafter ih =>
    intro frames rest hrest
    have hvalue (blanks : List Char) (hblanks : Blank blanks) :
        skipFrom .value (frame :: frames) (blanks ++ (value ++ (after ++ rest))) =
          skipFrom .behind (frame :: frames) rest := by
      rw [ih _ blanks _ hblanks (hrest.blank_append hafter)]
      exact skipFrom_behind (next?_blank_append hafter rest)
    simp only [List.append_assoc]
    cases hheading with
    | list =>
      rw [List.nil_append, ← List.append_assoc]
      exact hvalue _ (hbefore.append hbetween)
    | @object body blanks hbody hblanks =>
      obtain ⟨values, hname⟩ := string_body hbody
        (blanks ++ ':' :: (between ++ (value ++ (after ++ rest))))
      simp only [List.cons_append, List.append_assoc, List.nil_append]
      rw [Frame.next, skipFrom_name (next?_blank_cons hbefore (by decide) _) hname
        (next?_blank_cons hblanks (by decide) _)]
      exact hvalue _ hbetween
  | @last frame text _ ih =>
    intro frames rest
    rw [ih frames _ (stops_close frame rest), skipFrom_close (next?_cons (isBlank_close frame) rest)]
  | @more frame text rest' _ _ ih ih' =>
    intro frames rest
    rw [List.append_assoc, List.cons_append, ih frames _ (stops_comma _),
      skipFrom_comma (next?_cons (by decide) _)]
    exact ih' frames rest

/-- Any value is passed over, with the blanks in front of it. -/
theorem skipValue_append {blanks value rest : List Char} (hblanks : Blank blanks)
    (hvalue : Written .value value) (hrest : Stops rest) :
    skipValue (blanks ++ (value ++ rest)) = .ok rest := by
  rw [skipValue, hvalue.passes [] blanks rest hblanks hrest, skipFrom.eq_3]

end TapeLang.Json
