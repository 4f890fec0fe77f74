import Mathlib.Algebra.Order.Ring.Int
import Mathlib.Logic.Relation
import Mathlib.Tactic.Linarith
import Mathlib.Tactic.Ring
import Ence360.Distributed.Sort

/-!
# The merge-tree schedule

On every rank `mergeTree` doubles `step` until the rank is no longer a multiple
of it. The send of a rank therefore happens at twice its lowest set bit, which
is the level where its destination waits for it.
-/

set_option autoImplicit false

namespace Ence360.Distributed.Sort

open Ence360.Semantics

def Branch.isSend : Branch → Bool
  | .send _ _ => true
  | _ => false

def schedule (worldSize rank : ℤ) : Option (List Branch) :=
  mergeTree worldSize rank 32 2

def Sends (worldSize rank step dest : ℤ) : Prop :=
  0 ≤ rank ∧ rank < worldSize ∧
    ∃ branches, schedule worldSize rank = some branches ∧ Branch.send step dest ∈ branches

def Receives (worldSize rank step source : ℤ) : Prop :=
  0 ≤ rank ∧ rank < worldSize ∧
    ∃ branches, schedule worldSize rank = some branches ∧ Branch.receive step source ∈ branches

/-- The blocking receive of `rank` at `step` cannot complete before another one:
an earlier receive of the same rank, or any receive of its source, whose send
is the last action of the source. -/
inductive WaitsFor (worldSize : ℤ) : ℤ × ℤ → ℤ × ℤ → Prop where
  | source {rank step source inner innerSource : ℤ} :
      Receives worldSize rank step source → Receives worldSize source inner innerSource →
      WaitsFor worldSize (rank, step) (source, inner)
  | earlier {rank step source inner innerSource : ℤ} :
      Receives worldSize rank step source → Receives worldSize rank inner innerSource →
      inner < step → WaitsFor worldSize (rank, step) (rank, inner)

/-- Progress of `mergeTree` on `rank` from the step `2 ^ (level + 1)` on, where
`2 ^ height` is the power of two the recursion stops at. -/
inductive Scheduled (height : ℕ) (worldSize rank : ℤ) : ℕ → List Branch → Prop where
  | finished {level : ℕ} : height ≤ level →
      Scheduled height worldSize rank level [.finished (2 ^ (level + 1))]
  | edge {level : ℕ} {rest : List Branch} : level < height → 2 ^ (level + 1) ∣ rank →
      worldSize ≤ rank + 2 ^ level → Scheduled height worldSize rank (level + 1) rest →
      Scheduled height worldSize rank level (.edge (2 ^ (level + 1)) (rank + 2 ^ level) :: rest)
  | receive {level : ℕ} {rest : List Branch} : level < height → 2 ^ (level + 1) ∣ rank →
      rank + 2 ^ level < worldSize → Scheduled height worldSize rank (level + 1) rest →
      Scheduled height worldSize rank level
        (.receive (2 ^ (level + 1)) (rank + 2 ^ level) :: rest)
  | send {level : ℕ} : level < height → ¬ 2 ^ (level + 1) ∣ rank →
      Scheduled height worldSize rank level [.send (2 ^ (level + 1)) (rank - 2 ^ level)]

private theorem two_pow_le {level bound : ℕ} (le : level ≤ bound) :
    (2 : ℤ) ^ level ≤ 2 ^ bound :=
  pow_le_pow_right₀ (by decide) le

private theorem two_pow_pos (level : ℕ) : (0 : ℤ) < 2 ^ level :=
  pow_pos (by decide) level

theorem nextPower2Loop_eq_some {n : ℤ} (bounded : n ≤ 2 ^ 29) (fuel level : ℕ)
    (small : level ≤ 29) (enough : 30 ≤ fuel + level) :
    ∃ height, height ≤ 29 ∧ n ≤ 2 ^ height ∧
      nextPower2Loop n fuel (2 ^ level) = some (2 ^ height) := by
  induction fuel generalizing level with
  | zero => omega
  | succ fuel ih =>
      by_cases below : (2 : ℤ) ^ level < n
      · have levelLt : level < 29 := by
          by_contra notBelow
          have top : level = 29 := by omega
          subst top
          omega
        have positive := two_pow_pos level
        have doubleLe := two_pow_le (by omega : level + 1 ≤ 29)
        have double : CheckedInt.mul (2 ^ level) 2 = some (2 ^ (level + 1)) := by
          rw [pow_succ] at doubleLe ⊢
          exact CheckedInt.mul_eq_some (by omega) (by omega)
        obtain ⟨height, heightLe, covers, found⟩ := ih (level + 1) (by omega) (by omega)
        exact ⟨height, heightLe, covers, by simp [nextPower2Loop, below, double, found]⟩
      · exact ⟨level, small, by omega, by simp [nextPower2Loop, below]⟩

theorem nextPower2_eq_some {n : ℤ} (bounded : n ≤ 2 ^ 29) :
    ∃ height, height ≤ 29 ∧ n ≤ 2 ^ height ∧ nextPower2 n = some (2 ^ height) := by
  simpa [nextPower2] using nextPower2Loop_eq_some bounded 32 0 (by omega) (by omega)

theorem mergeTree_scheduled {worldSize rank : ℤ} {height : ℕ} (heightLe : height ≤ 29)
    (limit : nextPower2 worldSize = some (2 ^ height)) (covers : worldSize ≤ 2 ^ height)
    (rankNonneg : 0 ≤ rank) (rankLt : rank < worldSize) (fuel level : ℕ)
    (levelLe : level ≤ height) (enough : height < fuel + level) :
    ∃ branches, mergeTree worldSize rank fuel (2 ^ (level + 1)) = some branches ∧
      Scheduled height worldSize rank level branches := by
  induction fuel generalizing level with
  | zero => omega
  | succ fuel ih =>
      have half : (2 : ℤ) ^ (level + 1) = 2 ^ level * 2 := pow_succ 2 level
      have halfPos := two_pow_pos level
      have heightPow := two_pow_le heightLe
      by_cases done : height ≤ level
      · have past : (2 : ℤ) ^ height < 2 ^ (level + 1) := by
          have := two_pow_le done
          omega
        exact ⟨_, by simp [mergeTree, limit, past], .finished done⟩
      · have below := two_pow_le (by omega : level + 1 ≤ height)
        have position : CheckedInt.rem rank (2 ^ (level + 1)) = some (rank % 2 ^ (level + 1)) :=
          CheckedInt.rem_eq_some rankNonneg (by omega) (by omega)
        have halved : CheckedInt.div (2 ^ (level + 1)) 2 = some (2 ^ level) := by
          rw [CheckedInt.div_eq_some (by omega) (by omega) (by omega), half,
            Int.mul_ediv_cancel _ (by decide)]
        have notPast : ¬ (2 : ℤ) ^ (level + 1) > 2 ^ height := by omega
        by_cases even : (2 : ℤ) ^ (level + 1) ∣ rank
        · have aligned : rank % 2 ^ (level + 1) = 0 := Int.emod_eq_zero_of_dvd even
          have source : CheckedInt.add rank (2 ^ level) = some (rank + 2 ^ level) :=
            CheckedInt.add_eq_some (by omega) (by omega)
          have doubled : CheckedInt.mul (2 ^ (level + 1)) 2 = some (2 ^ (level + 1 + 1)) := by
            rw [pow_succ 2 (level + 1)]
            exact CheckedInt.mul_eq_some (by omega) (by omega)
          obtain ⟨rest, recursive, scheduled⟩ := ih (level + 1) (by omega) (by omega)
          by_cases outside : rank + 2 ^ level ≥ worldSize
          · refine ⟨.edge (2 ^ (level + 1)) (rank + 2 ^ level) :: rest, ?_,
              .edge (by omega) even outside scheduled⟩
            simp only [mergeTree, limit, position, halved, source, doubled, recursive, aligned,
              Option.bind_eq_bind, Option.bind_some, if_neg notPast, if_true, if_pos outside]
          · refine ⟨.receive (2 ^ (level + 1)) (rank + 2 ^ level) :: rest, ?_,
              .receive (by omega) even (by omega) scheduled⟩
            simp only [mergeTree, limit, position, halved, source, doubled, recursive, aligned,
              Option.bind_eq_bind, Option.bind_some, if_neg notPast, if_true, if_neg outside]
        · have odd : rank % 2 ^ (level + 1) ≠ 0 := fun zero => even (Int.dvd_of_emod_eq_zero zero)
          have dest : CheckedInt.sub rank (2 ^ level) = some (rank - 2 ^ level) :=
            CheckedInt.sub_eq_some (by omega) (by omega)
          refine ⟨_, ?_, .send (by omega) even⟩
          simp only [mergeTree, limit, position, halved, dest, Option.bind_eq_bind,
            Option.bind_some, if_neg notPast, if_neg odd]

section Shape

variable {height level : ℕ} {worldSize rank : ℤ} {branches : List Branch}

theorem Scheduled.functional {others : List Branch}
    (first : Scheduled height worldSize rank level branches)
    (second : Scheduled height worldSize rank level others) : branches = others := by
  induction first generalizing others with
  | finished done =>
      cases second with
      | finished _ => rfl
      | edge below _ _ _ => omega
      | receive below _ _ _ => omega
      | send below _ => omega
  | edge below even outside _ ih =>
      cases second with
      | finished done => omega
      | edge _ _ _ rest => rw [ih rest]
      | receive _ _ inside _ => omega
      | send _ odd => exact absurd even odd
  | receive below even inside _ ih =>
      cases second with
      | finished done => omega
      | edge _ _ outside _ => omega
      | receive _ _ _ rest => rw [ih rest]
      | send _ odd => exact absurd even odd
  | send below odd =>
      cases second with
      | finished done => omega
      | edge _ even _ _ => exact absurd even odd
      | receive _ even _ _ => exact absurd even odd
      | send _ _ => rfl

/-- A stage from a level on is this level or comes after it. -/
private theorem exists_stage_iff (level : ℕ) {holds : ℕ → Prop} :
    (∃ stage, level ≤ stage ∧ holds stage) ↔
      holds level ∨ ∃ stage, level + 1 ≤ stage ∧ holds stage := by
  constructor
  · intro staged
    obtain ⟨stage, low, found⟩ := staged
    rcases low.eq_or_lt with rfl | above
    · exact .inl found
    · exact .inr ⟨stage, above, found⟩
  · intro either
    rcases either with found | ⟨stage, above, found⟩
    · exact ⟨level, le_rfl, found⟩
    · exact ⟨stage, Nat.le_of_succ_le above, found⟩

theorem Scheduled.mem_receive_iff {step source : ℤ}
    (scheduled : Scheduled height worldSize rank level branches) :
    Branch.receive step source ∈ branches ↔ ∃ stage, level ≤ stage ∧ stage < height ∧
      2 ^ (stage + 1) ∣ rank ∧ rank + 2 ^ stage < worldSize ∧
        step = 2 ^ (stage + 1) ∧ source = rank + 2 ^ stage := by
  induction scheduled with
  | @finished level done =>
      constructor
      · intro member
        simp at member
      · intro staged
        obtain ⟨stage, low, high, _⟩ := staged
        omega
  | @edge level rest below even outside _ ih =>
      rw [List.mem_cons, ih, exists_stage_iff level]
      refine or_congr_left (iff_of_false nofun ?_)
      intro here
      obtain ⟨_, _, inside, _⟩ := here
      omega
  | @receive level rest below even inside _ ih =>
      rw [List.mem_cons, ih, exists_stage_iff level]
      refine or_congr_left ?_
      constructor
      · intro same
        cases same
        exact ⟨below, even, inside, rfl, rfl⟩
      · intro here
        obtain ⟨_, _, _, rfl, rfl⟩ := here
        rfl
  | @send level below odd =>
      constructor
      · intro member
        simp at member
      · intro staged
        obtain ⟨stage, low, high, divides, _⟩ := staged
        exact absurd ((pow_dvd_pow 2 (by omega)).trans divides) odd

theorem Scheduled.mem_send_iff {step dest : ℤ}
    (scheduled : Scheduled height worldSize rank level branches) (aligned : 2 ^ level ∣ rank) :
    Branch.send step dest ∈ branches ↔ ∃ stage, level ≤ stage ∧ stage < height ∧
      2 ^ stage ∣ rank ∧ ¬ 2 ^ (stage + 1) ∣ rank ∧ step = 2 ^ (stage + 1) ∧
      dest = rank - 2 ^ stage := by
  induction scheduled with
  | @finished level done =>
      constructor
      · intro member
        simp at member
      · intro staged
        obtain ⟨stage, low, high, _⟩ := staged
        omega
  | @edge level rest below even _ _ ih | @receive level rest below even _ _ ih =>
      rw [List.mem_cons, ih even, exists_stage_iff level]
      refine or_congr_left (iff_of_false nofun ?_)
      intro here
      obtain ⟨_, _, odd, _⟩ := here
      exact odd even
  | @send level below odd =>
      constructor
      · intro member
        simp only [List.mem_singleton, Branch.send.injEq] at member
        exact ⟨level, le_rfl, below, aligned, odd, member.1, member.2⟩
      · intro staged
        obtain ⟨stage, low, high, divides, _, rfl, rfl⟩ := staged
        rcases low.eq_or_lt with rfl | above
        · simp
        · exact absurd ((pow_dvd_pow 2 above).trans divides) odd

/-- Sending ends the recursion, so a schedule has at most one send, at its end. -/
theorem Scheduled.send_last (scheduled : Scheduled height worldSize rank level branches) :
    ∃ before last, branches = before ++ [last] ∧ ∀ branch ∈ before, branch.isSend = false := by
  induction scheduled with
  | finished _ => exact ⟨[], _, rfl, by simp⟩
  | edge _ _ _ _ ih | receive _ _ _ _ ih =>
      obtain ⟨before, last, rfl, quiet⟩ := ih
      refine ⟨_ :: before, last, rfl, ?_⟩
      intro branch member
      rcases List.mem_cons.mp member with rfl | member
      · rfl
      · exact quiet branch member
  | send _ _ => exact ⟨[], _, rfl, by simp⟩

end Shape

structure ReductionTree (worldSize : ℤ) : Prop where
  terminates : ∀ rank, 0 ≤ rank → rank < worldSize →
    ∃ branches, ∀ fuel, 32 ≤ fuel → mergeTree worldSize rank fuel 2 = some branches
  rootNeverSends : ∀ step dest, ¬ Sends worldSize 0 step dest
  sendsLast : ∀ rank, 1 ≤ rank → rank < worldSize → ∃ before step dest,
    schedule worldSize rank = some (before ++ [.send step dest]) ∧
      ∀ branch ∈ before, branch.isSend = false
  matched : ∀ rank step dest, Sends worldSize rank step dest ↔ Receives worldSize dest step rank
  ranksAcyclic : ∀ rank,
    ¬ Relation.TransGen (fun waiting source => ∃ step, Receives worldSize waiting step source)
      rank rank
  receivesAcyclic : ∀ receive, ¬ Relation.TransGen (WaitsFor worldSize) receive receive
  uniqueParent : ∀ rank, 1 ≤ rank → rank < worldSize →
    ∃! parent, ∃ step, Sends worldSize rank step parent
  rooted : ∀ rank, 0 ≤ rank → rank < worldSize →
    Relation.ReflTransGen (fun child parent => ∃ step, Sends worldSize child step parent) rank 0

private theorem not_transGen_self {α : Type} {relation : α → α → Prop} (measure : α → ℤ)
    (decreases : ∀ left right, relation left right → measure right < measure left) (item : α) :
    ¬ Relation.TransGen relation item item := by
  have smaller : ∀ left right, Relation.TransGen relation left right →
      measure right < measure left := by
    intro left right path
    induction path with
    | single related => exact decreases _ _ related
    | tail _ related ih => exact (decreases _ _ related).trans ih
  exact fun cycle => lt_irrefl _ (smaller item item cycle)

private theorem dvd_sub_lowest_bit {rank : ℤ} {stage : ℕ} (divides : 2 ^ stage ∣ rank)
    (odd : ¬ 2 ^ (stage + 1) ∣ rank) : 2 ^ (stage + 1) ∣ rank - 2 ^ stage := by
  obtain ⟨quotient, rfl⟩ := divides
  have oddQuotient : ¬ 2 ∣ quotient := fun even =>
    odd (by rw [pow_succ]; exact mul_dvd_mul_left _ even)
  have evenPredecessor : 2 ∣ quotient - 1 := by omega
  have factored : (2 : ℤ) ^ stage * quotient - 2 ^ stage = 2 ^ stage * (quotient - 1) := by ring
  rw [factored, pow_succ]
  exact mul_dvd_mul_left _ evenPredecessor

private theorem dvd_add_lowest_bit {rank : ℤ} {stage : ℕ} (divides : 2 ^ (stage + 1) ∣ rank) :
    2 ^ stage ∣ rank + 2 ^ stage ∧ ¬ 2 ^ (stage + 1) ∣ rank + 2 ^ stage := by
  have half : (2 : ℤ) ^ stage ∣ 2 ^ (stage + 1) := pow_dvd_pow 2 (Nat.le_succ stage)
  refine ⟨Int.dvd_add (half.trans divides) dvd_rfl, fun sum => ?_⟩
  have bit : (2 : ℤ) ^ (stage + 1) ∣ 2 ^ stage := (Int.dvd_add_right divides).mp sum
  have large := Int.le_of_dvd (two_pow_pos stage) bit
  rw [pow_succ] at large
  have := two_pow_pos stage
  omega

private theorem exists_lowest_bit {rank : ℤ} {height : ℕ} (top : ¬ 2 ^ height ∣ rank) :
    ∃ stage, stage < height ∧ 2 ^ stage ∣ rank ∧ ¬ 2 ^ (stage + 1) ∣ rank := by
  induction height with
  | zero => exact absurd (one_dvd rank) top
  | succ height ih =>
      by_cases divides : 2 ^ height ∣ rank
      · exact ⟨height, Nat.lt_succ_self height, divides, top⟩
      · obtain ⟨stage, below, found⟩ := ih divides
        exact ⟨stage, below.trans (Nat.lt_succ_self height), found⟩

section World

variable {worldSize : ℤ} {height : ℕ}

structure Heighted (worldSize : ℤ) (height : ℕ) : Prop where
  covers : worldSize ≤ 2 ^ height
  follows : ∀ rank, 0 ≤ rank → rank < worldSize →
    ∃ branches, (∀ fuel, 32 ≤ fuel → mergeTree worldSize rank fuel 2 = some branches) ∧
      Scheduled height worldSize rank 0 branches

theorem exists_heighted (bounded : worldSize ≤ 2 ^ 29) : ∃ height, Heighted worldSize height := by
  obtain ⟨height, heightLe, covers, limit⟩ := nextPower2_eq_some bounded
  have runs (rank : ℤ) (rankNonneg : 0 ≤ rank) (rankLt : rank < worldSize) (fuel : ℕ)
      (enough : 32 ≤ fuel) := mergeTree_scheduled heightLe limit covers rankNonneg rankLt fuel 0
        (by omega) (by omega)
  refine ⟨height, covers, fun rank rankNonneg rankLt => ?_⟩
  obtain ⟨branches, _, scheduled⟩ := runs rank rankNonneg rankLt 32 le_rfl
  refine ⟨branches, fun fuel enough => ?_, scheduled⟩
  obtain ⟨others, computed, same⟩ := runs rank rankNonneg rankLt fuel enough
  rw [scheduled.functional same]
  simpa using computed

theorem Heighted.scheduled (heighted : Heighted worldSize height) {rank : ℤ}
    (rankNonneg : 0 ≤ rank) (rankLt : rank < worldSize) :
    ∃ branches, schedule worldSize rank = some branches ∧
      Scheduled height worldSize rank 0 branches := by
  obtain ⟨branches, computed, scheduled⟩ := heighted.follows rank rankNonneg rankLt
  exact ⟨branches, computed 32 le_rfl, scheduled⟩

theorem Heighted.sends_iff (heighted : Heighted worldSize height) {rank step dest : ℤ} :
    Sends worldSize rank step dest ↔ 0 ≤ rank ∧ rank < worldSize ∧ ∃ stage, stage < height ∧
      2 ^ stage ∣ rank ∧ ¬ 2 ^ (stage + 1) ∣ rank ∧
        step = 2 ^ (stage + 1) ∧ dest = rank - 2 ^ stage := by
  refine and_congr_right fun rankNonneg => and_congr_right fun rankLt => ?_
  obtain ⟨branches, computed, scheduled⟩ := heighted.scheduled rankNonneg rankLt
  have aligned : (2 : ℤ) ^ 0 ∣ rank := one_dvd rank
  simp [computed, scheduled.mem_send_iff aligned]

theorem Heighted.receives_iff (heighted : Heighted worldSize height) {rank step source : ℤ} :
    Receives worldSize rank step source ↔ 0 ≤ rank ∧ rank < worldSize ∧ ∃ stage, stage < height ∧
      2 ^ (stage + 1) ∣ rank ∧ rank + 2 ^ stage < worldSize ∧
        step = 2 ^ (stage + 1) ∧ source = rank + 2 ^ stage := by
  refine and_congr_right fun rankNonneg => and_congr_right fun rankLt => ?_
  obtain ⟨branches, computed, scheduled⟩ := heighted.scheduled rankNonneg rankLt
  simp [computed, scheduled.mem_receive_iff]

theorem Heighted.matched (heighted : Heighted worldSize height) (rank step dest : ℤ) :
    Sends worldSize rank step dest ↔ Receives worldSize dest step rank := by
  rw [heighted.sends_iff, heighted.receives_iff]
  constructor
  · intro sent
    obtain ⟨rankNonneg, rankLt, stage, below, divides, odd, rfl, rfl⟩ := sent
    have positive := two_pow_pos stage
    have rankPos : 0 < rank := by
      rcases rankNonneg.eq_or_lt with rfl | rankPos
      · exact absurd (dvd_zero _) odd
      · exact rankPos
    have bitLe := Int.le_of_dvd rankPos divides
    exact ⟨by omega, by omega, stage, below, dvd_sub_lowest_bit divides odd, by omega, rfl,
      by omega⟩
  · intro received
    obtain ⟨destNonneg, destLt, stage, below, divides, inside, rfl, rfl⟩ := received
    have positive := two_pow_pos stage
    obtain ⟨aligned, odd⟩ := dvd_add_lowest_bit divides
    exact ⟨by omega, inside, stage, below, aligned, odd, rfl, by omega⟩

theorem Heighted.parent_lt (heighted : Heighted worldSize height) {rank step dest : ℤ}
    (sends : Sends worldSize rank step dest) : 0 ≤ dest ∧ dest < rank := by
  obtain ⟨destNonneg, _⟩ := (heighted.matched rank step dest).mp sends
  obtain ⟨_, _, stage, _, _, _, _, rfl⟩ := heighted.sends_iff.mp sends
  have := two_pow_pos stage
  exact ⟨destNonneg, by omega⟩

theorem Heighted.sends_of_pos (heighted : Heighted worldSize height) {rank : ℤ}
    (positive : 1 ≤ rank) (rankLt : rank < worldSize) :
    ∃ step dest, Sends worldSize rank step dest := by
  have top : ¬ 2 ^ height ∣ rank := fun divides => by
    have large := Int.le_of_dvd (by omega) divides
    have covers := heighted.covers
    omega
  obtain ⟨stage, below, divides, odd⟩ := exists_lowest_bit top
  exact ⟨_, _, heighted.sends_iff.mpr
    ⟨by omega, rankLt, stage, below, divides, odd, rfl, rfl⟩⟩

theorem Heighted.sends_unique (heighted : Heighted worldSize height) {rank step dest : ℤ}
    {otherStep otherDest : ℤ} (first : Sends worldSize rank step dest)
    (second : Sends worldSize rank otherStep otherDest) : dest = otherDest := by
  obtain ⟨_, _, stage, _, divides, odd, _, rfl⟩ := heighted.sends_iff.mp first
  obtain ⟨_, _, other, _, otherDivides, otherOdd, _, rfl⟩ := heighted.sends_iff.mp second
  have same : stage = other := by
    rcases Nat.lt_trichotomy stage other with less | equal | greater
    · exact absurd ((pow_dvd_pow 2 less).trans otherDivides) odd
    · exact equal
    · exact absurd ((pow_dvd_pow 2 greater).trans divides) otherOdd
  rw [same]

theorem Heighted.sendsLast (heighted : Heighted worldSize height) {rank : ℤ}
    (positive : 1 ≤ rank) (rankLt : rank < worldSize) :
    ∃ before step dest, schedule worldSize rank = some (before ++ [.send step dest]) ∧
      ∀ branch ∈ before, branch.isSend = false := by
  obtain ⟨step, dest, _, _, branches, computed, member⟩ :=
    heighted.sends_of_pos positive rankLt
  obtain ⟨others, recomputed, scheduled⟩ := heighted.scheduled (by omega) rankLt
  obtain ⟨before, last, shape, quiet⟩ := scheduled.send_last
  have same : branches = before ++ [last] :=
    (Option.some.inj (computed.symm.trans recomputed)).trans shape
  subst same
  rcases List.mem_append.mp member with early | final
  · exact absurd (quiet _ early) (by simp [Branch.isSend])
  · exact ⟨before, step, dest, by rw [computed, List.mem_singleton.mp final], quiet⟩

theorem Heighted.waitsFor_step_lt (heighted : Heighted worldSize height) {left right : ℤ × ℤ}
    (waits : WaitsFor worldSize left right) : right.2 < left.2 := by
  cases waits with
  | earlier _ _ before => exact before
  | source received inner =>
      have sent := (heighted.matched _ _ _).mpr received
      obtain ⟨_, _, stage, _, _, odd, rfl, _⟩ := heighted.sends_iff.mp sent
      obtain ⟨_, _, lower, _, divides, _, rfl, _⟩ := heighted.receives_iff.mp inner
      have below : lower < stage := by
        by_contra notBelow
        exact odd ((pow_dvd_pow 2 (by omega)).trans divides)
      exact pow_lt_pow_right₀ (by decide) (by omega)

theorem Heighted.rooted (heighted : Heighted worldSize height) (bound : ℕ) (rank : ℤ)
    (rankNonneg : 0 ≤ rank) (rankLt : rank < worldSize) (rankLe : rank ≤ bound) :
    Relation.ReflTransGen (fun child parent => ∃ step, Sends worldSize child step parent)
      rank 0 := by
  induction bound generalizing rank with
  | zero =>
      have root : rank = 0 := by omega
      rw [root]
  | succ bound ih =>
      rcases rankNonneg.eq_or_lt with rfl | positive
      · exact .refl
      · obtain ⟨step, dest, sends⟩ := heighted.sends_of_pos (by omega) rankLt
        obtain ⟨destNonneg, destLt⟩ := heighted.parent_lt sends
        exact .head ⟨step, sends⟩ (ih dest destNonneg (by omega) (by omega))

end World

/-- The branches and peers of `mergeTree` form a matched, acyclic reduction to
rank 0 in every world whose doubled steps fit an `int`. -/
theorem mergeTree_reduces {worldSize : ℤ} (bounded : worldSize ≤ 2 ^ 29) :
    ReductionTree worldSize := by
  obtain ⟨height, heighted⟩ := exists_heighted bounded
  constructor
  case terminates =>
    intro rank rankNonneg rankLt
    obtain ⟨branches, computed, _⟩ := heighted.follows rank rankNonneg rankLt
    exact ⟨branches, computed⟩
  case rootNeverSends =>
    intro step dest sends
    have := heighted.parent_lt sends
    omega
  case sendsLast => exact fun rank => heighted.sendsLast
  case matched => exact heighted.matched
  case ranksAcyclic =>
    intro rank
    apply not_transGen_self (fun rank => -rank)
    rintro waiting source ⟨step, received⟩
    have := heighted.parent_lt ((heighted.matched _ _ _).mpr received)
    omega
  case receivesAcyclic =>
    exact not_transGen_self (fun receive => receive.2) fun _ _ => heighted.waitsFor_step_lt
  case uniqueParent =>
    intro rank positive rankLt
    obtain ⟨step, dest, sends⟩ := heighted.sends_of_pos positive rankLt
    exact ⟨dest, ⟨step, sends⟩, fun other ⟨_, also⟩ => heighted.sends_unique also sends⟩
  case rooted =>
    intro rank rankNonneg rankLt
    exact heighted.rooted rank.toNat rank rankNonneg rankLt (by omega)

/-- Six ranks: rank 4 has no partner at the middle level and sends at the top one. -/
theorem mergeTree_reduces_six : ReductionTree 6 ∧
    schedule 6 4 = some [.receive 2 5, .edge 4 6, .send 8 0] :=
  ⟨mergeTree_reduces (by decide), by decide⟩

end Ence360.Distributed.Sort
