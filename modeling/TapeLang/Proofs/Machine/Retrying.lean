import TapeLang.Proofs.Feed.Failures
import TapeLang.Proofs.Machine.Feeding

/-!
# Retrying

A machine that is stepped again and again on a feed stays where it is while the
feed gives no byte. So what it visits apart from these visits is what it visits
on a feed without the failures: each list of served visits on one feed is one on
the other (`exists_served_visits_dropped`, `exists_served_visits_retried`).
-/

namespace TapeLang

/-- Whether an answer tells that the feed gave no byte. -/
def Status.isUnserved : Status → Bool
  | .failed (.inputUnavailable _ _) => true
  | _ => false

namespace Machine

variable {m m' : Machine} {provided : Option UInt8} {feed feed' : Feed} {status : Status}

/-- The machines that steps on a feed lead to, whatever they answer, with the answers. -/
def visits : Nat → Machine × Feed → List (Machine × Status)
  | 0, _ => []
  | n + 1, s => ((stepOnFeed s).1.1, (stepOnFeed s).2) :: visits n (stepOnFeed s).1

/-- The visits behind steps for which the feed had a byte, or was not asked. -/
def served (visits : List (Machine × Status)) : List (Machine × Status) :=
  visits.filter fun visit ↦ !visit.2.isUnserved

private theorem isUnserved_settle (m : Machine) : m.settle.isUnserved = false := by
  unfold settle
  split
  · rfl
  split
  · rfl
  split <;> rfl

/-- A step that does not ask a feed does not miss a byte. -/
private theorem isUnserved_stepsTo (h : m.StepsTo provided m' status) :
    status.isUnserved = false := by
  cases h with
  | ended | spent => rfl
  | refused _ _ effect => cases effect <;> rfl
  | executed => exact isUnserved_settle _

private theorem served_visits_of_idle (idle : ¬ m.Asks) (feed : Feed) (n : Nat) :
    served (visits (n + 1) (m, feed)) = m.step :: served (visits n (m.step.1, feed)) := by
  have hserved : m.step.2.isUnserved = false := isUnserved_stepsTo (stepWith_spec m none)
  have hstep : stepOnFeed (m, feed) = ((m.step.1, feed), m.step.2) := stepOnFeed_of_idle idle
  rw [visits, hstep, served, List.filter_cons_of_pos (by rw [hserved]; rfl)]
  rfl

private theorem served_visits_of_byte {value : UInt8} {requestsStop : Bool} (asks : m.Asks)
    (reply : feed.next.1 = .byte value requestsStop) (n : Nat) :
    served (visits (n + 1) (m, feed)) =
      (m.receive value requestsStop, (m.receive value requestsStop).settle) ::
        served (visits n (m.receive value requestsStop, feed.next.2)) := by
  have hstep : stepOnFeed (m, feed) = ((m.receive value requestsStop, feed.next.2),
      (m.receive value requestsStop).settle) := stepOnFeed_of_byte asks reply
  rw [visits, hstep, served, List.filter_cons_of_pos (by rw [isUnserved_settle]; rfl)]
  rfl

private theorem served_visits_of_unavailable {failure : InputFailure} (asks : m.Asks)
    (reply : feed.next.1 = .unavailable failure false) (n : Nat) :
    served (visits (n + 1) (m, feed)) = served (visits n (m, feed.next.2)) := by
  have hstep : stepOnFeed (m, feed) =
      ((m, feed.next.2), .failed (.inputUnavailable m.pc failure)) := by
    rw [stepOnFeed_of_unavailable asks reply, heed_false]
  rw [visits, hstep, served, List.filter_cons_of_neg Bool.false_ne_true]
  rfl

private theorem next_cases (hquiet : feed.Quiet) :
    (feed.gives feed.calls = true ∧
        ∃ value requestsStop, feed.next.1 = .byte value requestsStop) ∨
      (feed.gives feed.calls = false ∧ ∃ failure, feed.next.1 = .unavailable failure false) := by
  have hgives : feed.gives feed.calls = feed.next.1.byte?.isSome := rfl
  have hnext : feed.next.1.isQuiet = true := hquiet feed.calls
  rw [hgives]
  cases reply : feed.next.1 with
  | byte value requestsStop => exact Or.inl ⟨rfl, value, requestsStop, rfl⟩
  | unavailable failure requestsStop =>
    cases requestsStop with
    | false => exact Or.inr ⟨rfl, failure, rfl⟩
    | true =>
      rw [reply] at hnext
      contradiction

/-- Requests without a byte show in the feed only. -/
private theorem served_visits_retry (asks : m.Asks) (hquiet : feed.Quiet) (n d : Nat)
    (hfails : ∀ i < d, feed.gives (feed.calls + i) = false) :
    served (visits (d + n) (m, feed)) =
      served (visits n (m, { feed with calls := feed.calls + d })) := by
  induction d generalizing feed with
  | zero =>
    rw [Nat.zero_add]
    rfl
  | succ d ih =>
    have hfirst : feed.gives feed.calls = false := hfails 0 (Nat.succ_pos d)
    have hrest : ∀ i < d, feed.next.2.gives (feed.next.2.calls + i) = false := by
      intro i hi
      have h := hfails (i + 1) (Nat.succ_lt_succ hi)
      rwa [Nat.add_comm i 1, ← Nat.add_assoc] at h
    have hcalls : feed.calls + (d + 1) = feed.next.2.calls + d := by
      rw [Nat.add_comm d 1, ← Nat.add_assoc]
      rfl
    have hnext : feed.next.2.Quiet := hquiet
    rcases next_cases hquiet with ⟨hgives, -⟩ | ⟨-, failure, reply⟩
    · rw [hgives] at hfirst
      contradiction
    · rw [Nat.add_right_comm, served_visits_of_unavailable asks reply, ih hnext hrest, hcalls]
      rfl

/-- What is visited on a feed is visited on the feed without its failures. -/
theorem exists_served_visits_dropped (h : feed.DropsFailures feed') (n : Nat) :
    ∃ k, served (visits n (m, feed)) = served (visits k (m, feed')) := by
  induction n generalizing m feed feed' with
  | zero => exact ⟨0, rfl⟩
  | succ n ih =>
    by_cases asks : m.Asks
    · rcases next_cases h.quiet with ⟨hgives, value, requestsStop, reply⟩ |
        ⟨hgives, failure, reply⟩
      · obtain ⟨hsame, hnext⟩ := h.next_of_gives hgives
        obtain ⟨k, hk⟩ := ih (m := m.receive value requestsStop) hnext
        refine ⟨k + 1, ?_⟩
        rw [served_visits_of_byte asks reply, served_visits_of_byte asks (hsame.trans reply), hk]
      · obtain ⟨k, hk⟩ := ih (m := m) (h.next_of_not_gives hgives)
        refine ⟨k, ?_⟩
        rw [served_visits_of_unavailable asks reply, hk]
    · obtain ⟨k, hk⟩ := ih (m := m.step.1) h
      refine ⟨k + 1, ?_⟩
      rw [served_visits_of_idle asks, served_visits_of_idle asks, hk]

/-- What is visited on a feed without failures is visited on the feed itself by retrying. -/
theorem exists_served_visits_retried (h : feed.DropsFailures feed') (n : Nat) :
    ∃ k, served (visits k (m, feed)) = served (visits n (m, feed')) := by
  induction n generalizing m feed feed' with
  | zero => exact ⟨0, rfl⟩
  | succ n ih =>
    by_cases asks : m.Asks
    · rcases next_cases h.quiet_dropped with ⟨hgives, value, requestsStop, reply⟩ | ⟨hgives, -⟩
      · obtain ⟨d, hfails, hbyte, hthere⟩ := h.exists_retries hgives
        obtain ⟨hsame, hnext⟩ := hthere.next_of_gives hbyte
        obtain ⟨k, hk⟩ := ih (m := m.receive value requestsStop) hnext
        refine ⟨d + (k + 1), ?_⟩
        rw [served_visits_retry asks h.quiet _ d hfails,
          served_visits_of_byte asks (hsame.symm.trans reply), served_visits_of_byte asks reply, hk]
      · refine ⟨0, ?_⟩
        have hnone := served_visits_retry asks h.quiet_dropped 0 (n + 1)
          fun i _ ↦ h.gives_eq_false hgives i
        exact hnone.symm
    · obtain ⟨k, hk⟩ := ih (m := m.step.1) h
      refine ⟨k + 1, ?_⟩
      rw [served_visits_of_idle asks, served_visits_of_idle asks, hk]

end Machine

end TapeLang
