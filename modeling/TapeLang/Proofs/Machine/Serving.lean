import TapeLang.Proofs.Machine.Course
import TapeLang.Proofs.Machine.Retrying

/-!
# Serving a machine

Every byte that a feed gives is stored by the input instruction it was asked
for. What one step does with the feed is in `ServedOnce`; over any sequence of
steps and runs on one feed, however they are timed, the bytes given are the
bytes stored, in the same order (`Accounts`, `accounts_moves`). Together with
what is known about retries, main statement: `feed_is_served_in_order`.
-/

namespace TapeLang

/-- The bytes among the replies to the requests from one number up to another, in order. -/
def Feed.bytesBetween (f : Feed) (first last : Nat) : List UInt8 :=
  (List.range' first (last - first)).filterMap fun request ↦ (f.reply request).byte?

/-- The states in front of the steps that an advance makes. -/
def passed {σ : Type} (next : σ → σ × Status) : Nat → σ → List σ
  | 0, _ => []
  | n + 1, s => s :: if (next s).2 = .more then passed next n (next s).1 else []

namespace Feed

variable {f f' : Feed}

theorem bytesBetween_congr (h : f'.reply = f.reply) (first last : Nat) :
    f'.bytesBetween first last = f.bytesBetween first last := by
  rw [bytesBetween, bytesBetween, h]

@[simp] theorem bytesBetween_self (f : Feed) (n : Nat) : f.bytesBetween n n = [] := by
  rw [bytesBetween, Nat.sub_self]
  rfl

/-- One reply holds one byte at most. -/
theorem bytesBetween_succ (f : Feed) (n : Nat) :
    f.bytesBetween n (n + 1) = (f.reply n).byte?.toList := by
  rw [bytesBetween, Nat.add_sub_cancel_left]
  cases h : (f.reply n).byte? <;> simp [List.range', h]

/-- Requests are answered one after the other. -/
theorem bytesBetween_append {a b c : Nat} (hab : a ≤ b) (hbc : b ≤ c) :
    f.bytesBetween a b ++ f.bytesBetween b c = f.bytesBetween a c := by
  obtain ⟨i, rfl⟩ := Nat.exists_eq_add_of_le hab
  obtain ⟨j, rfl⟩ := Nat.exists_eq_add_of_le hbc
  have hsum : a + i + j - a = i + j := by omega
  unfold bytesBetween
  rw [← List.filterMap_append, hsum, Nat.add_sub_cancel_left, Nat.add_sub_cancel_left,
    List.range'_append_1]

end Feed

namespace Machine

variable {m : Machine} {feed : Feed} {s s' : Machine × Feed} {status : Status}

/-- The byte that a step on a feed stores by executing an input instruction. -/
def stored? (s : Machine × Feed) : Option UInt8 :=
  if s.1.current? = some .input ∧ (stepOnFeed s).1.1.stepCount = s.1.stepCount + 1 then
    some (stepOnFeed s).1.1.cell
  else none

/-- What happens on a long-lived feed: steps and runs that read from it, and the operations that set flags or put
the machine back to its start. Each of them may be timed differently. -/
inductive Move where
  | withClock (clock : Clock)
  | step
  | run
  | stop
  | startClock
  | reset

def Move.make : Move → Machine × Feed → Machine × Feed
  | withClock clock, s => (s.1.withClock clock, s.2)
  | step, s => (stepOnFeed s).1
  | run, s => ((s.1.runFed s.2).1, (s.1.runFed s.2).2.1)
  | stop, s => (s.1.stop, s.2)
  | startClock, s => (s.1.startClock, s.2)
  | reset, s => (s.1.reset, s.2)

/-- The machines and feeds in front of the steps that a move makes. -/
def Move.steps : Move → Machine × Feed → List (Machine × Feed)
  | step, s => [s]
  | run, s => passed stepOnFeed s.1.stepsToAnswer (s.1.begin, s.2)
  | withClock _, _ | stop, _ | startClock, _ | reset, _ => []

def makeMoves (moves : List Move) (s : Machine × Feed) : Machine × Feed :=
  moves.foldl (fun s move ↦ move.make s) s

/-- The machines and feeds in front of the steps that some moves make. -/
def stepsOf : List Move → Machine × Feed → List (Machine × Feed)
  | [], _ => []
  | move :: rest, s => move.steps s ++ stepsOf rest (move.make s)

/-- A feed is asked once for each step that asks, and its bytes are stored by these steps in their order. -/
structure Accounts (steps : List (Machine × Feed)) (feed feed' : Feed) : Prop where
  feed_eq : feed' = { feed with calls := feed.calls + steps.countP fun s ↦ s.1.Asks }
  bytes_eq : feed.bytesBetween feed.calls feed'.calls = steps.filterMap stored?

theorem accounts_nil (feed : Feed) : Accounts [] feed feed :=
  ⟨rfl, Feed.bytesBetween_self feed feed.calls⟩

/-- Accounts of steps behind one another add up. -/
theorem Accounts.append {steps steps' : List (Machine × Feed)} {f f' f'' : Feed}
    (h : Accounts steps f f') (h' : Accounts steps' f' f'') : Accounts (steps ++ steps') f f'' := by
  have hreply : f'.reply = f.reply := by rw [h.feed_eq]
  constructor
  · rw [h'.feed_eq, h.feed_eq, List.countP_append, Nat.add_assoc]
  · have hfirst : f.calls ≤ f'.calls := by
      rw [h.feed_eq]
      exact Nat.le_add_right _ _
    have hsecond : f'.calls ≤ f''.calls := by
      rw [h'.feed_eq]
      exact Nat.le_add_right _ _
    rw [List.filterMap_append, ← h.bytes_eq, ← h'.bytes_eq, Feed.bytesBetween_congr hreply,
      Feed.bytesBetween_append hfirst hsecond]

/-- A byte given is the byte stored. -/
theorem stored?_of_byte {value : UInt8} {requestsStop : Bool} (asks : s.1.Asks)
    (reply : s.2.next.1 = .byte value requestsStop) : stored? s = some value := by
  rw [stored?, stepOnFeed_of_byte asks reply, if_pos ⟨asks.1, rfl⟩]
  exact congrArg some ((Tape.get_set _ _ _ _).trans (if_pos rfl))

theorem stored?_of_unavailable {failure : InputFailure} {requestsStop : Bool} (asks : s.1.Asks)
    (reply : s.2.next.1 = .unavailable failure requestsStop) : stored? s = none := by
  rw [stored?, stepOnFeed_of_unavailable asks reply, if_neg]
  exact fun h ↦ Nat.succ_ne_self _ h.2.symm

/-- Without a request no input instruction is executed. -/
theorem stored?_of_idle (idle : ¬ s.1.Asks) : stored? s = none := by
  rw [stored?, stepOnFeed_of_idle idle, if_neg]
  rintro ⟨current, hcount⟩
  rw [step_of_idle_input idle current] at hcount
  exact Nat.succ_ne_self _ hcount.symm

/-- One step accounts for its request. -/
theorem accounts_step (s : Machine × Feed) : Accounts [s] s.2 (stepOnFeed s).1.2 := by
  by_cases asks : s.1.Asks
  · have hone : [s].countP (fun s ↦ s.1.Asks) = 1 := by simp [asks]
    have hgiven : s.2.bytesBetween s.2.calls s.2.next.2.calls = s.2.next.1.byte?.toList :=
      Feed.bytesBetween_succ s.2 s.2.calls
    cases reply : s.2.next.1 with
    | byte value requestsStop =>
      rw [stepOnFeed_of_byte asks reply]
      refine ⟨by rw [hone]; rfl, ?_⟩
      rw [hgiven, reply, List.filterMap_cons_some (stored?_of_byte asks reply)]
      rfl
    | unavailable failure requestsStop =>
      rw [stepOnFeed_of_unavailable asks reply]
      refine ⟨by rw [hone]; rfl, ?_⟩
      rw [hgiven, reply, List.filterMap_cons_none (stored?_of_unavailable asks reply)]
      rfl
  · have hnone : [s].countP (fun s ↦ s.1.Asks) = 0 := by simp [asks]
    rw [stepOnFeed_of_idle asks]
    refine ⟨by rw [hnone]; rfl, ?_⟩
    rw [List.filterMap_cons_none (stored?_of_idle asks)]
    exact Feed.bytesBetween_self s.2 s.2.calls

/-- An advance on a feed accounts for its requests. -/
theorem accounts_advance (n : Nat) (s : Machine × Feed) :
    Accounts (passed stepOnFeed n s) s.2 (advance stepOnFeed n s).1.2 := by
  induction n generalizing s with
  | zero => exact accounts_nil s.2
  | succ n ih =>
    rw [passed, advance_succ]
    split
    · exact (accounts_step s).append (ih _)
    · exact accounts_step s

/-- A move accounts for its requests. -/
theorem accounts_move (move : Move) (s : Machine × Feed) :
    Accounts (move.steps s) s.2 (move.make s).2 := by
  cases move with
  | step => exact accounts_step s
  | run =>
    obtain ⟨k, hk, last, hends, hrun⟩ := runFed_ends s.1 s.2
    have hlt : k < s.1.stepsToAnswer := Nat.lt_succ_of_le hk
    have haccounts := accounts_advance s.1.stepsToAnswer (s.1.begin, s.2)
    rw [hends.advance_eq hlt] at haccounts
    rw [Move.make, hrun]
    exact haccounts
  | withClock | stop | startClock | reset => exact accounts_nil s.2

/-- Moves account for their requests: the bytes given are the bytes stored, in the same order. -/
theorem accounts_moves (moves : List Move) (s : Machine × Feed) :
    Accounts (stepsOf moves s) s.2 (makeMoves moves s).2 := by
  induction moves generalizing s with
  | nil => exact accounts_nil s.2
  | cons move rest ih => exact (accounts_move move s).append (ih (move.make s))

/-- How one step serves a machine. -/
structure ServedOnce (s : Machine × Feed) : Prop where
  /-- The feed is asked in front of an input instruction with budget left, once, and otherwise not at all. -/
  feed_eq : (stepOnFeed s).1.2 = if s.1.Asks then s.2.next.2 else s.2
  /-- A byte goes into the current cell by the execution of that instruction, and only then the machine looks at the
  stop, at the clock and at the end of the program. -/
  byte : s.1.Asks → ∀ value requestsStop, s.2.next.1 = .byte value requestsStop →
    (stepOnFeed s).1.1 =
        { s.1 with
          tape := s.1.tape.set s.1.pointer value
          pc := s.1.pc + 1
          stepCount := s.1.stepCount + 1
          stopRequested := s.1.stopRequested || requestsStop } ∧
      stored? s = some value ∧ (stepOnFeed s).2 = (stepOnFeed s).1.1.settle
  /-- A reply without a byte is the answer, and nothing happens, unless the reply itself requests a stop. -/
  unavailable : s.1.Asks → ∀ failure requestsStop, s.2.next.1 = .unavailable failure requestsStop →
    (stepOnFeed s).1.1 =
        (if requestsStop then { s.1 with stopRequested := true } else s.1) ∧
      (stepOnFeed s).2 = .failed (.inputUnavailable s.1.pc failure)
  /-- A machine that does not ask makes its own step. -/
  idle : ¬ s.1.Asks → ((stepOnFeed s).1.1, (stepOnFeed s).2) = s.1.step

/-- Every step serves its machine in this way. -/
theorem servedOnce (s : Machine × Feed) : ServedOnce s := by
  constructor
  · split
    · next asks =>
      cases reply : s.2.next.1 with
      | byte => rw [stepOnFeed_of_byte asks reply]
      | unavailable => rw [stepOnFeed_of_unavailable asks reply]
    · next idle => rw [stepOnFeed_of_idle idle]
  · intro asks value requestsStop reply
    rw [stored?_of_byte asks reply, stepOnFeed_of_byte asks reply]
    exact ⟨rfl, rfl, rfl⟩
  · intro asks failure requestsStop reply
    rw [stepOnFeed_of_unavailable asks reply]
    cases requestsStop with
    | false => exact ⟨heed_false s.1, rfl⟩
    | true => exact ⟨heed_true s.1, rfl⟩
  · intro idle
    rw [stepOnFeed_of_idle idle]

/-- No byte of a feed is lost, stored twice or stored out of order. A step asks for a byte only to execute an input
instruction on it at once, and stays where it is without one. Over any steps and runs on one feed, the bytes given
are the bytes stored. So retrying visits what is visited on a feed without the failures, such as a script from which
they are removed; a stop comes only together with a byte in such scripts. -/
theorem feed_is_served_in_order :
    (∀ s : Machine × Feed, ServedOnce s) ∧
      (∀ (moves : List Move) (s : Machine × Feed),
        Accounts (stepsOf moves s) s.2 (makeMoves moves s).2) ∧
      (∀ (m : Machine) (feed feed' : Feed), feed.DropsFailures feed' → ∀ n,
        (∃ k, served (visits n (m, feed)) = served (visits k (m, feed'))) ∧
          ∃ k, served (visits k (m, feed)) = served (visits n (m, feed'))) ∧
      ∀ script : Array Reply, (∀ reply ∈ script, reply.isQuiet = true) →
        (Feed.ofReplies script).DropsFailures
          (Feed.ofReplies (script.filter (·.byte?.isSome))) := by
  refine ⟨servedOnce, accounts_moves, ?_, fun _ ↦ Feed.dropsFailures_ofReplies⟩
  intro m feed feed' h n
  exact ⟨exists_served_visits_dropped h n, exists_served_visits_retried h n⟩

/-- A byte that comes with a request to stop, behind a failure that is retried. -/
theorem feed_is_served_behind_a_failure :
    let m := load (Program.ofList [.input, .output]) {}
    let feed := Feed.ofReplies #[.unavailable .closed, .byte 7 true]
    let feed' := Feed.ofReplies #[.byte 7 true]
    (feed.DropsFailures feed' ∧ (visits 3 (m, feed)).length = 3) ∧
      ∃ k, served (visits 3 (m, feed)) = served (visits k (m, feed')) := by
  intro m feed feed'
  have hquiet : ∀ reply ∈ #[Reply.unavailable .closed, .byte 7 true], reply.isQuiet = true := by
    decide
  have hdrops : feed.DropsFailures feed' := Feed.dropsFailures_ofReplies hquiet
  exact ⟨⟨hdrops, rfl⟩, (feed_is_served_in_order.2.2.1 m feed feed' hdrops 3).1⟩

end Machine

end TapeLang
