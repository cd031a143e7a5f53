import TapeLang.Proofs.Transition.Halting

/-!
# Discovery of loops

A pass offers to a row every loop that lands on some value, in a fixed order, and
an entry is replaced by a loop that is strictly shorter. So an entry that is
replaced ends as the first of the shortest loops that land on its value, and
otherwise it is kept (`discovered_loop_is_first_shortest`).
-/

namespace TapeLang.Transition

variable {l k : MultiplyLoop} {start target : UInt8} {old new : Word} {loops : List MultiplyLoop}

namespace MultiplyLoop

/-- The factors of a loop that is tried. -/
structure Admissible (l : MultiplyLoop) : Prop where
  outer_pos : 1 ≤ l.outer
  outer_lt : l.outer < 40
  inner_pos : 1 ≤ l.inner
  inner_lt : l.inner < 40
  coprime : Nat.gcd l.outer l.inner = 1

/-- The order in which loops are tried: by the outer factor, then by the inner one, and the decrementing loop before
the incrementing one. -/
inductive Precedes (l k : MultiplyLoop) : Prop
  | outer (outer : l.outer < k.outer)
  | inner (outer : l.outer = k.outer) (inner : l.inner < k.inner)
  | direction (outer : l.outer = k.outer) (inner : l.inner = k.inner) (down : l.direction = .down)
    (up : k.direction = .up)

/-- The loop is tried and lands on the value. -/
structure Candidate (l : MultiplyLoop) (start target : UInt8) : Prop where
  admissible : l.Admissible
  lands : l.LandsOn start target

end MultiplyLoop

/-! ### The list of loops -/

theorem mem_factors {n : Nat} : n ∈ factors ↔ 1 ≤ n ∧ n < 40 := by
  simp [factors, List.mem_range'_1]

theorem mem_coprimeFactors {outer inner : Nat} :
    inner ∈ coprimeFactors outer ↔ (1 ≤ inner ∧ inner < 40) ∧ Nat.gcd outer inner = 1 := by
  simp [coprimeFactors, mem_factors]

/-- The list holds the candidates for every value. -/
theorem mem_landings_iff : (l, target) ∈ landings start ↔ l.Candidate start target := by
  simp only [landings, List.mem_flatMap, List.mem_append, Option.mem_toList, Option.map_eq_some_iff,
    mem_factors, mem_coprimeFactors]
  constructor
  · rintro ⟨outer, ⟨houter, houter'⟩, inner, ⟨⟨hinner, hinner'⟩, hcoprime⟩,
      ⟨n, hn, heq⟩ | ⟨n, hn, heq⟩⟩
    all_goals
      obtain ⟨rfl, rfl⟩ := Prod.mk.inj heq
      exact ⟨⟨houter, houter', hinner, hinner', hcoprime⟩,
        landsOn_iff_roundsToZero.mpr ⟨n, hn, rfl⟩⟩
  · rintro ⟨⟨houter, houter', hinner, hinner', hcoprime⟩, hlands⟩
    obtain ⟨n, hn, rfl⟩ := landsOn_iff_roundsToZero.mp hlands
    obtain ⟨direction, outer, inner⟩ := l
    refine ⟨outer, ⟨houter, houter'⟩, inner, ⟨⟨hinner, hinner'⟩, hcoprime⟩, ?_⟩
    cases direction with
    | down => exact Or.inl ⟨n, hn, rfl⟩
    | up => exact Or.inr ⟨n, hn, rfl⟩

/-- The list is in order. -/
theorem pairwise_landings (start : UInt8) :
    (landings start).Pairwise fun x y ↦ x.1.Precedes y.1 := by
  have hfactors : factors.Pairwise (· < ·) := List.pairwise_lt_range'
  rw [landings, List.pairwise_flatMap]
  constructor
  · intro outer _
    rw [List.pairwise_flatMap]
    constructor
    · intro inner _
      have hsingle {o : Option (MultiplyLoop × UInt8)} :
          o.toList.Pairwise fun x y ↦ x.1.Precedes y.1 := by cases o <;> simp
      refine List.pairwise_append.mpr ⟨hsingle, hsingle, fun x hx y hy ↦ ?_⟩
      simp only [Option.mem_toList, Option.map_eq_some_iff] at hx hy
      obtain ⟨_, -, rfl⟩ := hx
      obtain ⟨_, -, rfl⟩ := hy
      exact .direction rfl rfl rfl rfl
    · apply (hfactors.filter _).imp
      intro inner inner' hlt x hx y hy
      simp only [List.mem_append, Option.mem_toList, Option.map_eq_some_iff] at hx hy
      obtain ⟨_, -, rfl⟩ | ⟨_, -, rfl⟩ := hx
      all_goals obtain ⟨_, -, rfl⟩ | ⟨_, -, rfl⟩ := hy
      all_goals exact .inner rfl hlt
  · apply hfactors.imp
    intro outer outer' hlt x hx y hy
    simp only [List.mem_flatMap, List.mem_append, Option.mem_toList, Option.map_eq_some_iff] at hx hy
    obtain ⟨_, -, ⟨_, -, rfl⟩ | ⟨_, -, rfl⟩⟩ := hx
    all_goals obtain ⟨_, -, ⟨_, -, rfl⟩ | ⟨_, -, rfl⟩⟩ := hy
    all_goals exact .outer hlt

/-! ### Offers for one entry -/

/-- The loops of a list that are offered for one entry. -/
def offersFor (target : UInt8) (offers : List (MultiplyLoop × UInt8)) : List MultiplyLoop :=
  (offers.filter (·.2 = target)).map (·.1)

/-- What becomes of an entry when loops are offered for it one after another. -/
inductive Settles (old : Word) (loops : List MultiplyLoop) : Word → Prop
  /-- No loop is shorter. -/
  | kept (shortest : ∀ l ∈ loops, old.size ≤ l.size) : Settles old loops old
  /-- The first of the shortest loops is taken. -/
  | taken (front : List MultiplyLoop) {l : MultiplyLoop} {rest : List MultiplyLoop}
      (split : loops = front ++ l :: rest) (shorter : l.size < old.size)
      (first : ∀ k ∈ front, l.size < k.size) (least : ∀ k ∈ rest, l.size ≤ k.size) :
    Settles old loops l.word

/-- A loop that is no shorter makes no difference in front of the others. -/
theorem Settles.cons_of_le (h : Settles old loops new) (hl : old.size ≤ l.size) :
    Settles old (l :: loops) new := by
  cases h with
  | kept shortest => exact .kept (List.forall_mem_cons.mpr ⟨hl, shortest⟩)
  | taken front split shorter first least =>
    apply Settles.taken (l :: front) (congrArg (l :: ·) split) shorter ?_ least
    exact List.forall_mem_cons.mpr ⟨Nat.lt_of_lt_of_le shorter hl, first⟩

/-- A loop that is shorter takes the place of the entry in front of the others. -/
theorem Settles.cons_of_lt (h : Settles l.word loops new) (hl : l.size < old.size) :
    Settles old (l :: loops) new := by
  cases h with
  | kept shortest =>
    rw [l.size_word] at shortest
    exact .taken [] rfl hl (fun k hk ↦ absurd hk List.not_mem_nil) shortest
  | taken front split shorter first least =>
    rw [l.size_word] at shorter
    apply Settles.taken (l :: front) (congrArg (l :: ·) split) (Nat.lt_trans shorter hl) ?_ least
    exact List.forall_mem_cons.mpr ⟨shorter, first⟩

/-- The entries of a row settle by themselves. -/
theorem settles_foldl_offer (offers : List (MultiplyLoop × UInt8)) (r : Row) (target : UInt8) :
    Settles (r.word target) (offersFor target offers) ((offers.foldl Row.offer r).word target) := by
  induction offers generalizing r with
  | nil => exact .kept fun l hl ↦ absurd hl List.not_mem_nil
  | cons offer offers ih =>
    have ih := ih (r.offer offer)
    obtain ⟨l, value⟩ := offer
    rw [List.foldl_cons]
    by_cases hvalue : value = target
    · subst hvalue
      have hoffers : offersFor value ((l, value) :: offers) = l :: offersFor value offers := by
        simp [offersFor]
      rw [hoffers]
      by_cases hshorter : l.size < (r.word value).size
      · have hword : (r.offer (l, value)).word value = l.word := by
          rw [Row.offer, if_pos hshorter, Row.word_setWord, if_pos rfl]
        rw [hword] at ih
        exact ih.cons_of_lt hshorter
      · have hkept : r.offer (l, value) = r := if_neg hshorter
        rw [hkept] at ih ⊢
        exact ih.cons_of_le (Nat.le_of_not_lt hshorter)
    · have hoffers : offersFor target ((l, value) :: offers) = offersFor target offers := by
        simp [offersFor, hvalue]
      have hword : (r.offer (l, value)).word target = r.word target := by
        unfold Row.offer
        split
        · rw [Row.word_setWord, if_neg (Ne.symm hvalue)]
        · rfl
      rw [hword] at ih
      rw [hoffers]
      exact ih

/-! ### The entries behind a discovery -/

theorem mem_offersFor_landings :
    l ∈ offersFor target (landings start) ↔ l.Candidate start target := by
  rw [← mem_landings_iff]
  simp [offersFor]

theorem pairwise_offersFor_landings (start target : UInt8) :
    (offersFor target (landings start)).Pairwise MultiplyLoop.Precedes :=
  List.pairwise_map.mpr ((pairwise_landings start).filter _)

/-- What is found for an entry: the old word, or the first of the shortest loops that land on its value. -/
structure FirstShortest (start target : UInt8) (old new : Word) : Prop where
  /-- The new word is no longer than the old one. -/
  size_le : new.size ≤ old.size
  /-- It is no longer than any candidate. -/
  size_le_candidate : ∀ l : MultiplyLoop, l.Candidate start target → new.size ≤ l.size
  /-- It is as long as one of them. -/
  attained : new.size = old.size ∨ ∃ l : MultiplyLoop, l.Candidate start target ∧ new.size = l.size
  /-- Without a shorter candidate the old word is kept. -/
  kept : (∀ l : MultiplyLoop, l.Candidate start target → old.size ≤ l.size) → new = old
  /-- A shorter candidate is taken, and of the shortest ones the first. -/
  taken : (∃ l : MultiplyLoop, l.Candidate start target ∧ l.size < old.size) →
    ∃ l : MultiplyLoop, l.Candidate start target ∧ new = l.word ∧
      ∀ k : MultiplyLoop, k.Candidate start target →
        l.size < k.size ∨ l.size = k.size ∧ (l = k ∨ l.Precedes k)

/-- An entry that has settled on the loops of an ordered list of all candidates. -/
theorem Settles.firstShortest (h : Settles old loops new)
    (hcandidates : ∀ l, l ∈ loops ↔ l.Candidate start target)
    (hordered : loops.Pairwise MultiplyLoop.Precedes) : FirstShortest start target old new := by
  cases h with
  | kept shortest =>
    have hshortest (l : MultiplyLoop) (hl : l.Candidate start target) : old.size ≤ l.size :=
      shortest l ((hcandidates l).mpr hl)
    constructor
    case size_le => exact Nat.le_refl _
    case size_le_candidate => exact hshortest
    case attained => exact Or.inl rfl
    case kept => exact fun _ ↦ rfl
    case taken =>
      rintro ⟨l, hl, hlt⟩
      exact absurd (hshortest l hl) (Nat.not_le_of_lt hlt)
  | @taken front l rest split shorter first least =>
    subst split
    have hl : l.Candidate start target := (hcandidates l).mp (by simp)
    have hfirst (k : MultiplyLoop) (hk : k.Candidate start target) :
        l.size < k.size ∨ l.size = k.size ∧ (l = k ∨ l.Precedes k) := by
      rcases List.mem_append.mp ((hcandidates k).mpr hk) with hfront | hrest
      · exact Or.inl (first k hfront)
      rcases List.mem_cons.mp hrest with rfl | hrest
      · exact Or.inr ⟨rfl, Or.inl rfl⟩
      · have hprecedes := (List.pairwise_cons.mp (List.pairwise_append.mp hordered).2.1).1 k hrest
        rcases Nat.lt_or_eq_of_le (least k hrest) with hlt | heq
        · exact Or.inl hlt
        · exact Or.inr ⟨heq, Or.inr hprecedes⟩
    have hword := l.size_word
    constructor
    case size_le => omega
    case size_le_candidate =>
      intro k hk
      have := hfirst k hk
      omega
    case attained => exact Or.inr ⟨l, hl, hword⟩
    case kept => exact fun hkept ↦ absurd (hkept l hl) (Nat.not_le_of_lt shorter)
    case taken => exact fun _ ↦ ⟨l, hl, rfl, hfirst⟩

/-- Behind a discovery of loops each entry is as short as the shortest candidate, if that is strictly shorter than
the old entry, and then it is the first of the shortest candidates. Otherwise it is the old entry. -/
theorem discovered_loop_is_first_shortest (t : Table) (start target : UInt8) :
    FirstShortest start target (t.word start target) (t.discoverLoops.word start target) := by
  have hsettles := settles_foldl_offer (landings start) (t.row start) target
  rw [Table.word, Table.word, row_discoverLoops, Row.discoverLoops]
  exact hsettles.firstShortest (fun _ ↦ mem_offersFor_landings)
    (pairwise_offersFor_landings start target)

end TapeLang.Transition
