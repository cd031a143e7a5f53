import TapeLang.Feed

/-!
# Feeds without their failures

The bytes among the replies of a feed keep their order when the replies without
a byte are removed. `DropsFailures` relates a feed to one that gives just its
bytes, `dropsFailures_ofReplies` says that a script without its failures is such
a feed, and `DropsFailures.exists_retries` finds the requests after which the
first feed gives what the second one gives at once. A failure that asks for a
stop leaves a trace in the machine, so it cannot be dropped; feeds without such
failures are `Quiet`.
-/

namespace TapeLang

def Reply.byte? : Reply → Option UInt8
  | byte value _ => some value
  | unavailable _ _ => none

/-- Whether a reply requests a stop only together with a byte. -/
def Reply.isQuiet : Reply → Bool
  | byte _ _ => true
  | unavailable _ requestsStop => !requestsStop

namespace Feed

variable {f f' : Feed}

/-- No failure of the feed requests a stop. -/
def Quiet (f : Feed) : Prop := ∀ n, (f.reply n).isQuiet = true

def gives (f : Feed) (request : Nat) : Bool := (f.reply request).byte?.isSome

def bytesBefore (f : Feed) (n : Nat) : Nat := (List.range n).countP f.gives

theorem bytesBefore_succ (f : Feed) (n : Nat) :
    f.bytesBefore (n + 1) = f.bytesBefore n + if f.gives n then 1 else 0 := by
  simp [bytesBefore, List.range_succ, List.countP_append, List.countP_cons]

theorem bytesBefore_succ_le (f : Feed) (n : Nat) : f.bytesBefore n ≤ f.bytesBefore (n + 1) := by
  rw [bytesBefore_succ]
  exact Nat.le_add_right _ _

/-- Every byte counted stands behind the bytes counted before it. -/
theorem exists_of_lt_bytesBefore {j n : Nat} (h : j < f.bytesBefore n) :
    ∃ i < n, f.gives i = true ∧ f.bytesBefore i = j := by
  induction n with
  | zero => exact absurd h (Nat.not_lt_zero j)
  | succ n ih =>
    rw [bytesBefore_succ] at h
    by_cases hj : j < f.bytesBefore n
    · obtain ⟨i, hi, hgives, hbefore⟩ := ih hj
      exact ⟨i, Nat.lt_succ_of_lt hi, hgives, hbefore⟩
    · split at h
      · next hgives => exact ⟨n, Nat.lt_succ_self n, hgives, by omega⟩
      · omega

theorem bytesBefore_mono {a b : Nat} (h : a ≤ b) : f.bytesBefore a ≤ f.bytesBefore b := by
  induction h with
  | refl => exact Nat.le_refl _
  | step _ ih => exact Nat.le_trans ih (bytesBefore_succ_le f _)

/-- The second feed gives the bytes of the first one in their order and no others, and it stands in front of
the same byte. The failures dropped have requested nothing. -/
structure DropsFailures (f f' : Feed) : Prop where
  quiet : f.Quiet
  quiet_dropped : f'.Quiet
  kept : ∀ n, f.gives n = true → f'.reply (f.bytesBefore n) = f.reply n
  only : ∀ j, f'.gives j = true → ∃ n, j < f.bytesBefore n
  calls_eq : f'.calls = f.bytesBefore f.calls

/-- A feed that gives a byte and the one without its failures give the same, and stay in step. -/
theorem DropsFailures.next_of_gives (h : DropsFailures f f') (hgives : f.gives f.calls = true) :
    f'.next.1 = f.next.1 ∧ DropsFailures f.next.2 f'.next.2 := by
  refine ⟨?_, h.quiet, h.quiet_dropped, h.kept, h.only, ?_⟩
  · show f'.reply f'.calls = f.reply f.calls
    rw [h.calls_eq, h.kept _ hgives]
  · show f'.calls + 1 = f.bytesBefore (f.calls + 1)
    rw [bytesBefore_succ, if_pos hgives, h.calls_eq]

/-- A reply without a byte leaves a feed in front of the same byte. -/
theorem DropsFailures.next_of_not_gives (h : DropsFailures f f')
    (hgives : f.gives f.calls = false) : DropsFailures f.next.2 f' := by
  refine ⟨h.quiet, h.quiet_dropped, h.kept, h.only, ?_⟩
  show f'.calls = f.bytesBefore (f.calls + 1)
  rw [bytesBefore_succ, hgives, h.calls_eq]
  rfl

/-- What the second feed gives next, the first one gives after some requests without a byte. -/
theorem DropsFailures.exists_retries (h : DropsFailures f f') (hgives : f'.gives f'.calls = true) :
    ∃ d, (∀ i < d, f.gives (f.calls + i) = false) ∧ f.gives (f.calls + d) = true ∧
      DropsFailures { f with calls := f.calls + d } f' := by
  obtain ⟨n, hn⟩ := h.only _ hgives
  obtain ⟨j, -, hj, hbefore⟩ := exists_of_lt_bytesBefore hn
  rw [h.calls_eq] at hbefore
  have hle : f.calls ≤ j := by
    apply Nat.le_of_not_lt
    intro hlt
    have hmono := bytesBefore_mono (f := f) (Nat.succ_le_of_lt hlt)
    rw [bytesBefore_succ, if_pos hj] at hmono
    omega
  obtain ⟨d, rfl⟩ := Nat.exists_eq_add_of_le hle
  refine ⟨d, ?_, hj, h.quiet, h.quiet_dropped, h.kept, h.only, h.calls_eq.trans hbefore.symm⟩
  intro i hi
  apply Bool.eq_false_iff.mpr
  intro hbyte
  have hlower := bytesBefore_mono (f := f) (Nat.le_add_right f.calls i)
  have hupper := bytesBefore_mono (f := f) (Nat.add_lt_add_left hi f.calls)
  rw [Nat.succ_eq_add_one, bytesBefore_succ, if_pos hbyte] at hupper
  omega

/-- Once the second feed gives no byte, it never does again. -/
theorem DropsFailures.gives_eq_false (h : DropsFailures f f') {j : Nat}
    (hj : f'.gives j = false) (i : Nat) : f'.gives (j + i) = false := by
  apply Bool.eq_false_iff.mpr
  intro hbyte
  obtain ⟨n, hn⟩ := h.only _ hbyte
  obtain ⟨k, -, hk, rfl⟩ := exists_of_lt_bytesBefore (Nat.lt_of_le_of_lt (Nat.le_add_right j i) hn)
  have hsame : f'.gives (f.bytesBefore k) = f.gives k := congrArg (·.byte?.isSome) (h.kept k hk)
  rw [hsame, hk] at hj
  contradiction

/-! ### Scripts -/

/-- Past the end of a script its feed is closed. -/
theorem reply_ofReplies (script : Array Reply) (n : Nat) :
    (ofReplies script).reply n = script.toList[n]?.getD (.unavailable .closed) := by
  simp [ofReplies]

private theorem gives_ofReplies (script : Array Reply) (n : Nat) :
    (ofReplies script).gives n = script.toList[n]?.any (·.byte?.isSome) := by
  rw [gives, reply_ofReplies]
  cases script.toList[n]? <;> rfl

private theorem bytesBefore_ofReplies (script : Array Reply) (n : Nat) :
    (ofReplies script).bytesBefore n = (script.toList.take n).countP (·.byte?.isSome) := by
  induction n with
  | zero => rfl
  | succ n ih =>
    rw [bytesBefore_succ, ih, gives_ofReplies, List.take_add_one, List.countP_append]
    cases script.toList[n]? with
    | none => rfl
    | some reply => simp [List.countP_cons]

private theorem getElem?_filter_countP {α : Type} (p : α → Bool) {l : List α} {n : Nat} {a : α}
    (hn : l[n]? = some a) (ha : p a = true) : (l.filter p)[(l.take n).countP p]? = some a := by
  obtain ⟨hlt, rfl⟩ := List.getElem?_eq_some_iff.mp hn
  have hsplit : l.filter p = (l.take n).filter p ++ l[n] :: (l.drop (n + 1)).filter p := by
    rw [← List.filter_cons_of_pos ha, ← List.filter_append, List.getElem_cons_drop,
      List.take_append_drop]
  rw [hsplit, List.countP_eq_length_filter, List.getElem?_append_right (Nat.le_refl _),
    Nat.sub_self]
  rfl

/-- Past its end a script fails without asking for a stop. -/
theorem quiet_ofReplies {script : Array Reply} (h : ∀ reply ∈ script, reply.isQuiet = true) :
    (ofReplies script).Quiet := by
  intro n
  rw [reply_ofReplies]
  cases hn : script.toList[n]? with
  | none => rfl
  | some reply => exact h reply (Array.mem_toList_iff.mp (List.mem_of_getElem? hn))

/-- A script without its failures gives its bytes. -/
theorem dropsFailures_ofReplies {script : Array Reply} (h : ∀ reply ∈ script, reply.isQuiet = true) :
    DropsFailures (ofReplies script) (ofReplies (script.filter (·.byte?.isSome))) := by
  refine ⟨quiet_ofReplies h, quiet_ofReplies ?_, ?_, ?_, rfl⟩
  · exact fun reply hreply ↦ h reply (Array.mem_filter.mp hreply).1
  · intro n hgives
    rw [gives_ofReplies] at hgives
    cases hn : script.toList[n]? with
    | none => simp [hn] at hgives
    | some reply =>
      rw [hn] at hgives
      have hkept := getElem?_filter_countP (·.byte?.isSome) hn hgives
      rw [bytesBefore_ofReplies, reply_ofReplies, reply_ofReplies, Array.toList_filter, hkept, hn]
  · intro j hgives
    rw [gives_ofReplies, Array.toList_filter] at hgives
    refine ⟨script.size, ?_⟩
    rw [bytesBefore_ofReplies, ← Array.length_toList, List.take_length,
      List.countP_eq_length_filter]
    apply Nat.lt_of_not_le
    intro hle
    rw [List.getElem?_eq_none hle] at hgives
    contradiction

end Feed

end TapeLang
