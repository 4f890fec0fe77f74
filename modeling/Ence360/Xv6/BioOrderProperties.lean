import Ence360.Xv6.BioCacheProperties

/-!
# The order of the buffers

The list of the buffers is in the order in which they were last let go, so that a
block that is not cached gets the buffer nobody has used for the longest time.
-/

set_option autoImplicit false

namespace Ence360.Xv6.Bio

open Semantics

variable {Data Session : Type}

/-- The last session of a buffer gives it up. -/
def Frees (event : State Data Session × Action Data Session) (b : Index) : Bool :=
  match event.2 with
  | .brelse i => event.1.phase i = .releasing b ∧ (event.1.buf b).refcnt = 1
  | _ => false

/-- When a buffer was last given up, counted from the first event; the latest is
first. -/
def lastFreed : List (State Data Session × Action Data Session) → Index → ℕ
  | [], _ => 0
  | event :: earlier, b => if Frees event b then earlier.length + 1 else lastFreed earlier b

def freedAt (events : List (State Data Session × Action Data Session)) (b : Index) : ℕ :=
  lastFreed events.reverse b

theorem freedAt_snoc (events : List (State Data Session × Action Data Session))
    (event : State Data Session × Action Data Session) (b : Index) :
    freedAt (events ++ [event]) b =
      if Frees event b then events.length + 1 else freedAt events b := by
  rw [freedAt, List.reverse_append, List.reverse_singleton, List.singleton_append, lastFreed,
    List.length_reverse]
  rfl

theorem freedAt_le (events : List (State Data Session × Action Data Session)) (b : Index) :
    freedAt events b ≤ events.length := by
  induction events using List.reverseRecOn with
  | nil => exact Nat.le_refl 0
  | append_singleton events event ih =>
      rw [freedAt_snoc, List.length_append, List.length_singleton]
      split <;> omega

variable {state next : State Data Session} {order : List Index}
  {events : List (State Data Session × Action Data Session)}

/-- The buffers in the order of the list. -/
structure Ordered (events : List (State Data Session × Action Data Session))
    (state : State Data Session) (order : List Index) : Prop where
  represents : state.links.Represents order
  all : ∀ b, b ∈ order
  sorted : order.Pairwise fun a b => freedAt events b ≤ freedAt events a

/-- A step that gives up no buffer keeps the list. -/
theorem Ordered.keep (ordered : Ordered events state order) (links : next.links = state.links)
    {event : State Data Session × Action Data Session} (frees : ∀ b, Frees event b = false) :
    Ordered (events ++ [event]) next order where
  represents := by
    rw [links]
    exact ordered.represents
  all := ordered.all
  sorted := by
    simp only [freedAt_snoc, frees]
    exact ordered.sorted

theorem Ordered.front {b : Index} {before after : List Index}
    (ordered : Ordered events state (before ++ b :: after))
    (links : next.links = (state.links.unlink b).pushFront b)
    {event : State Data Session × Action Data Session}
    (frees : ∀ c, Frees event c = decide (c = b)) :
    Ordered (events ++ [event]) next (b :: (before ++ after)) where
  represents := by
    rw [links]
    exact ordered.represents.moveFront
  all c := by
    have member := ordered.all c
    simp only [List.mem_append, List.mem_cons] at member ⊢
    tauto
  sorted := by
    have nodup := (List.nodup_cons.mp (List.nodup_middle.mp ordered.represents.nodup)).1
    have others : ∀ c ∈ before ++ after, freedAt (events ++ [event]) c = freedAt events c := by
      intro c member
      have other : c ≠ b := fun same => nodup (same ▸ member)
      rw [freedAt_snoc, frees, decide_eq_false other]
      rfl
    refine List.pairwise_cons.mpr ⟨fun c member => ?_, ?_⟩
    · rw [others c member, freedAt_snoc, frees, decide_eq_true rfl, if_pos rfl]
      exact (freedAt_le events c).trans (Nat.le_succ _)
    · have sorted := ordered.sorted.sublist
        ((List.sublist_cons_self b after).append_left before)
      refine sorted.imp_of_mem fun {c d} first second le => ?_
      rw [others c first, others d second]
      exact le

variable [DecidableEq Session] {havedisk1 : Bool}

/-- Only `brelse` changes the list. -/
theorem links_of_transition {action : Action Data Session} (ordered : Ordered events state order)
    (stepped : Transition havedisk1 state action next) :
    (next.links = state.links ∧ ∀ b, Frees (state, action) b = false) ∨
      ∃ i b, action = .brelse i ∧ state.phase i = .releasing b ∧ next = brelse state i b := by
  cases stepped with
  | @bget i dev blockno idle =>
      refine .inl ⟨?_, fun _ => rfl⟩
      obtain ⟨b, -, same⟩ | ⟨_, b, _, -, -, -, -, same⟩ | ⟨-, -, same⟩ :=
        bget_cases ordered.represents ordered.all i dev blockno
      all_goals
        rw [same]
        rfl
  | acquiresleep => exact .inl ⟨rfl, fun _ => rfl⟩
  | @bread i b locked =>
      refine .inl ⟨?_, fun _ => rfl⟩
      rw [bread]
      split
      · rfl
      · exact (iderw_frame havedisk1 _ i b).2.1
  | @ideintr b rest ready queue =>
      exact .inl ⟨(ideintr_frame state b rest ready).2.1, fun _ => rfl⟩
  | wake => exact .inl ⟨rfl, fun _ => rfl⟩
  | store => exact .inl ⟨rfl, fun _ => rfl⟩
  | mark => exact .inl ⟨rfl, fun _ => rfl⟩
  | @bwrite i b stored holding =>
      refine .inl ⟨?_, fun _ => rfl⟩
      rw [bwrite]
      split
      · rfl
      · exact (iderw_frame havedisk1 _ i b).2.1
  | @releasesleep i b stored holding =>
      refine .inl ⟨?_, fun _ => rfl⟩
      rw [releasesleep]
      split <;> rfl
  | @brelse i b releasing => exact .inr ⟨i, b, rfl, releasing, rfl⟩

theorem Ordered.step [Fintype Session] {action : Action Data Session}
    (ordered : Ordered events state order) (counted : Counted state)
    (stepped : Transition havedisk1 state action next) :
    ∃ order, Ordered (events ++ [(state, action)]) next order := by
  rcases links_of_transition ordered stepped with ⟨links, frees⟩ | ⟨i, b, rfl, releasing, rfl⟩
  · exact ⟨order, ordered.keep links frees⟩
  · have used : (state.buf b).refcnt ≠ 0 :=
      counted.refcnt_ne_zero (i := i) (by rw [releasing]; rfl)
    have links := brelse_links state b i
    by_cases last : (state.buf b).refcnt = 1
    · rw [if_pos (by omega)] at links
      obtain ⟨before, after, rfl⟩ := List.append_of_mem (ordered.all b)
      refine ⟨_, ordered.front links fun c => ?_⟩
      simp only [Frees, releasing, Phase.releasing.injEq]
      by_cases same : c = b
      · simp [same, last]
      · simp [same, Ne.symm same]
    · rw [if_neg (by omega)] at links
      refine ⟨order, ordered.keep links fun c => ?_⟩
      simp only [Frees, releasing, Phase.releasing.injEq, decide_eq_false_iff_not]
      rintro ⟨rfl, one⟩
      exact last one

theorem ordered_of_run [Fintype Session] {zero : Data} {links : Links Index}
    {disk : UInt32 → UInt32 → Data}
    (run : (system havedisk1 zero).Run (initial zero links disk) events state) :
    ∃ order, Ordered events state order := by
  have invariant : Counted state ∧ ∃ order, Ordered events state order := by
    refine run.history (fun _ _ => True)
      (fun events state => Counted state ∧ ∃ order, Ordered events state order) ?_
      (fun _ _ => trivial) ?_
    · rintro events state action next ⟨counted, order, ordered⟩ - stepped
      have transition := (transition_of_system_step stepped).2
      exact ⟨counted.step transition, ordered.step counted transition⟩
    · refine ⟨counted_initial zero links disk, _, binit_represents links, by simp, ?_⟩
      exact List.pairwise_of_forall fun a b => Nat.le_refl 0
  exact invariant.2

/-- A block that is not cached gets the buffer that was given up longest ago of those
that are not in use. -/
theorem recycles_least_recent [Fintype Session] {zero : Data} {links : Links Index}
    {disk : UInt32 → UInt32 → Data} {i : Session} {b : Index} {dev blockno : UInt32}
    (run : (system havedisk1 zero).Run (initial zero links disk) events state)
    (absent : ∀ c, ¬ Cached state dev blockno c)
    (given : (bget state i dev blockno).phase i = .waiting b) (idle : state.phase i = .idle) :
    Unused state b ∧ ∀ c, Unused state c → freedAt events b ≤ freedAt events c := by
  obtain ⟨order, represents, all, sorted⟩ := ordered_of_run run
  obtain ⟨c, cached, -⟩ | ⟨before, c, after, rfl, -, unused, later, same⟩ | ⟨-, -, same⟩ :=
    bget_cases represents all i dev blockno
  · exact absurd cached (absent c)
  · rw [same] at given
    have found : c = b := by simpa [recycle] using given
    subst found
    refine ⟨unused, fun d isUnused => ?_⟩
    rcases List.mem_append.mp (all d) with earlier | here
    · exact (List.pairwise_append.mp sorted).2.2 d earlier c List.mem_cons_self
    · rcases List.mem_cons.mp here with rfl | behind
      · exact Nat.le_refl _
      · exact absurd isUnused (later d behind)
  · rw [same] at given
    change state.phase i = .waiting b at given
    rw [idle] at given
    cases given

/-- The buffer of a block that was just let go stays with it, and the next block
gets another one. -/
theorem recycles_least_recent_other :
    let start : State ℕ Bool := initial 0 ⟨fun _ => none, fun _ => none⟩ fun _ _ => 7
    ∃ events state, (system true 0).Run start events state ∧
      ∃ b, (bget state true 1 3).phase true = .waiting b ∧ Unused state b ∧
        ∀ c, Unused state c → freedAt events b ≤ freedAt events c := by
  intro start
  let actions : List (Action ℕ Bool) :=
    [.bget false 1 2, .acquiresleep false, .bread false, .ideintr true, .wake false,
      .releasesleep false, .brelse false]
  have reached : ((system true 0).execute start actions).map (fun state =>
      (state.phase true, (bget state true 1 3).phase true,
        decide (∀ c, ¬ ((state.buf c).dev = 1 ∧ (state.buf c).blockno = 3)))) =
      some (.idle, .waiting ⟨1, by decide⟩, true) := by decide +kernel
  obtain ⟨state, executed, facts⟩ := Option.map_eq_some_iff.mp reached
  obtain ⟨events, -, run⟩ := System.run_of_execute executed
  simp only [Prod.mk.injEq, decide_eq_true_eq] at facts
  obtain ⟨idle, given, absent⟩ := facts
  exact ⟨events, state, run, _, given, recycles_least_recent run absent given idle⟩

end Ence360.Xv6.Bio
