import Mathlib.Data.List.Induction
import Mathlib.Data.List.Nodup
import Mathlib.Logic.Function.Basic
import Mathlib.Tactic.Common

/-!
# Circular doubly linked lists

Links between nodes and a head, `none`. A segment is followed by both kinds of
link; what is known of a segment is kept by stores elsewhere.
-/

set_option autoImplicit false

namespace Ence360.Semantics

structure Links (Node : Type) where
  next : Option Node → Option Node
  prev : Option Node → Option Node

namespace Links

variable {Node : Type} [DecidableEq Node]

def setNext (links : Links Node) (place target : Option Node) : Links Node :=
  { links with next := Function.update links.next place target }

def setPrev (links : Links Node) (place target : Option Node) : Links Node :=
  { links with prev := Function.update links.prev place target }

/-- A head alone. -/
def clear (links : Links Node) : Links Node :=
  (links.setPrev none none).setNext none none

def pushFront (links : Links Node) (node : Node) : Links Node :=
  let links := links.setNext (some node) (links.next none)
  let links := links.setPrev (some node) none
  let links := links.setPrev (links.next none) (some node)
  links.setNext none (some node)

def unlink (links : Links Node) (node : Node) : Links Node :=
  let links := links.setPrev (links.next (some node)) (links.prev (some node))
  links.setNext (links.prev (some node)) (links.next (some node))

omit [DecidableEq Node] in
/-- The nodes strictly between two places. -/
def Segment (links : Links Node) : Option Node → List Node → Option Node → Prop
  | first, [], last => links.next first = last ∧ links.prev last = first
  | first, node :: nodes, last =>
      links.next first = some node ∧ links.prev (some node) = first ∧
        Segment links (some node) nodes last

structure Represents (links : Links Node) (nodes : List Node) : Prop where
  nodup : nodes.Nodup
  segment : links.Segment none nodes none

section Segments

variable {links other : Links Node} {first last target : Option Node} {nodes more : List Node}
  {node : Node}

omit [DecidableEq Node]

theorem segment_append :
    links.Segment first (nodes ++ node :: more) last ↔
      links.Segment first nodes (some node) ∧ links.Segment (some node) more last := by
  induction nodes generalizing first with
  | nil => simp [Segment, and_assoc]
  | cons head nodes ih => simp [Segment, ih, and_assoc]

theorem Segment.prev_last_mem (segment : links.Segment first nodes last) :
    links.prev last ∈ first :: nodes.map some := by
  induction nodes generalizing first with
  | nil =>
      rw [segment.2]
      exact List.mem_cons_self
  | cons node nodes ih => exact List.mem_cons_of_mem _ (ih segment.2.2)

theorem Segment.congr (segment : links.Segment first nodes last)
    (next : ∀ place ∈ first :: nodes.map some, other.next place = links.next place)
    (prev : ∀ place ∈ nodes.map some ++ [last], other.prev place = links.prev place) :
    other.Segment first nodes last := by
  induction nodes generalizing first with
  | nil =>
      obtain ⟨forward, back⟩ := segment
      refine ⟨(next first List.mem_cons_self).trans forward, ?_⟩
      exact (prev last List.mem_cons_self).trans back
  | cons node nodes ih =>
      obtain ⟨forward, back, rest⟩ := segment
      refine ⟨(next first List.mem_cons_self).trans forward,
        (prev (some node) List.mem_cons_self).trans back, ih rest ?_ ?_⟩
      · exact fun place member => next place (List.mem_cons_of_mem _ member)
      · exact fun place member => prev place (List.mem_cons_of_mem _ member)

/-- The last link of a segment is turned to another place. -/
theorem Segment.retarget (segment : links.Segment first nodes last)
    (distinct : (first :: nodes.map some).Nodup)
    (next : ∀ place ∈ first :: nodes.map some, place ≠ links.prev last →
      other.next place = links.next place)
    (prev : ∀ node ∈ nodes, other.prev (some node) = links.prev (some node))
    (turned : other.next (links.prev last) = target)
    (back : other.prev target = links.prev last) : other.Segment first nodes target := by
  induction nodes generalizing first with
  | nil =>
      rw [segment.2] at turned back
      exact ⟨turned, back⟩
  | cons node nodes ih =>
      obtain ⟨forward, backward, rest⟩ := segment
      obtain ⟨fresh, distinct⟩ := List.nodup_cons.mp distinct
      have notLast : first ≠ links.prev last := by
        intro same
        rw [same] at fresh
        exact fresh rest.prev_last_mem
      refine ⟨(next first List.mem_cons_self notLast).trans forward,
        (prev node List.mem_cons_self).trans backward, ih rest distinct ?_ ?_⟩
      · exact fun place member => next place (List.mem_cons_of_mem _ member)
      · exact fun node member => prev node (List.mem_cons_of_mem _ member)

end Segments

section Operations

variable {links : Links Node} {nodes before after : List Node} {node : Node}

theorem represents_clear (links : Links Node) : links.clear.Represents [] where
  nodup := List.nodup_nil
  segment := by simp [Segment, clear, setNext, setPrev]

omit [DecidableEq Node] in
theorem distinct_places (nodup : nodes.Nodup) : (none :: nodes.map some).Nodup :=
  List.nodup_cons.mpr ⟨by simp, nodup.map fun _ _ same => Option.some.inj same⟩

section Effects

variable {place : Option Node}

theorem pushFront_next_head (links : Links Node) (node : Node) :
    (links.pushFront node).next none = some node := by
  simp [pushFront, setNext, setPrev]

theorem pushFront_next_node (links : Links Node) (node : Node) :
    (links.pushFront node).next (some node) = links.next none := by
  simp [pushFront, setNext, setPrev]

theorem pushFront_next_of_ne (links : Links Node) (head : place ≠ none)
    (other : place ≠ some node) : (links.pushFront node).next place = links.next place := by
  simp [pushFront, setNext, setPrev, head, other]

theorem pushFront_prev_front (links : Links Node) (node : Node) :
    (links.pushFront node).prev (links.next none) = some node := by
  simp [pushFront, setNext, setPrev]

theorem pushFront_prev_node (fresh : links.next none ≠ some node) :
    (links.pushFront node).prev (some node) = none := by
  simp [pushFront, setNext, setPrev, fresh.symm]

theorem pushFront_prev_of_ne (links : Links Node) (front : place ≠ links.next none)
    (other : place ≠ some node) : (links.pushFront node).prev place = links.prev place := by
  simp [pushFront, setNext, setPrev, front, other]

/-- Between other nodes than itself, a node is taken out by its two neighbours. -/
theorem unlink_eq (alone : links.next (some node) ≠ some node) :
    links.unlink node =
      { next := Function.update links.next (links.prev (some node)) (links.next (some node))
        prev := Function.update links.prev (links.next (some node)) (links.prev (some node)) } := by
  simp [unlink, setNext, setPrev, alone.symm]

end Effects

theorem Represents.pushFront (represents : links.Represents nodes) (fresh : node ∉ nodes) :
    (links.pushFront node).Represents (node :: nodes) where
  nodup := List.nodup_cons.mpr ⟨fresh, represents.nodup⟩
  segment := by
    obtain ⟨nodup, segment⟩ := represents
    cases nodes with
    | nil =>
        have forward : links.next none = none := segment.1
        have notFront : links.next none ≠ some node := by simp [forward]
        refine ⟨pushFront_next_head links node, pushFront_prev_node notFront,
          (pushFront_next_node links node).trans forward, ?_⟩
        rw [← forward]
        exact pushFront_prev_front links node
    | cons first nodes =>
        obtain ⟨forward, back, rest⟩ := segment
        obtain ⟨other, absent⟩ : first ≠ node ∧ node ∉ nodes := by
          simpa [eq_comm] using fresh
        obtain ⟨new, nodup⟩ := List.nodup_cons.mp nodup
        have notFront : links.next none ≠ some node := by simpa [forward] using other
        refine ⟨pushFront_next_head links node, pushFront_prev_node notFront,
          (pushFront_next_node links node).trans forward, ?_, rest.congr ?_ ?_⟩
        · rw [← forward]
          exact pushFront_prev_front links node
        · intro place member
          refine pushFront_next_of_ne links ?_ ?_
          all_goals
            rintro rfl
            simp [other.symm, absent] at member
        · intro place member
          refine pushFront_prev_of_ne links ?_ ?_
          · rintro rfl
            simp [forward, new] at member
          · rintro rfl
            simp [absent] at member

/-- Nodes put in one after the other stand in reverse. -/
theorem Represents.foldl_pushFront (represents : links.Represents nodes)
    (nodup : before.Nodup) (fresh : ∀ node ∈ before, node ∉ nodes) :
    (before.foldl (fun links node => links.pushFront node) links).Represents
      (before.reverse ++ nodes) := by
  induction before generalizing links nodes with
  | nil => exact represents
  | cons node before ih =>
      obtain ⟨absent, nodup⟩ := List.nodup_cons.mp nodup
      obtain ⟨first, rest⟩ := List.forall_mem_cons.mp fresh
      rw [List.foldl_cons, List.reverse_cons, List.append_assoc]
      refine ih (represents.pushFront first) nodup fun other member => ?_
      rw [List.singleton_append, List.mem_cons]
      rintro (rfl | present)
      · exact absent member
      · exact rest other member present

theorem Represents.unlink (represents : links.Represents (before ++ node :: after)) :
    (links.unlink node).Represents (before ++ after) := by
  obtain ⟨nodup, segment⟩ := represents
  obtain ⟨toNode, fromNode⟩ := segment_append.mp segment
  have distinct := distinct_places nodup
  rw [List.map_append, List.map_cons, ← List.cons_append] at distinct
  obtain ⟨beforeDistinct, afterDistinct, apart⟩ := List.nodup_append.mp distinct
  obtain ⟨absent, afterDistinct⟩ := List.nodup_cons.mp afterDistinct
  have notAfter : ∀ place ∈ after.map some, place ≠ links.prev (some node) := by
    rintro place member rfl
    exact apart _ toNode.prev_last_mem _ (List.mem_cons_of_mem _ member) rfl
  refine ⟨nodup.sublist ((List.sublist_cons_self node after).append_left before), ?_⟩
  cases after with
  | nil =>
      have forward : links.next (some node) = none := fromNode.1
      rw [List.append_nil, unlink_eq (by simp [forward]), forward]
      refine toNode.retarget beforeDistinct ?_ ?_ ?_ ?_
      · exact fun place _ other => Function.update_of_ne other _ _
      · intro earlier _
        simp
      · exact Function.update_self _ _ _
      · simp
  | cons first after =>
      obtain ⟨forward, -, rest⟩ := fromNode
      have other : first ≠ node := by
        rintro rfl
        exact absent List.mem_cons_self
      have fresh := (List.nodup_cons.mp afterDistinct).1
      rw [unlink_eq (by simp [forward, other]), forward]
      refine segment_append.mpr ⟨toNode.retarget beforeDistinct ?_ ?_ ?_ ?_, rest.congr ?_ ?_⟩
      · exact fun place _ other => Function.update_of_ne other _ _
      · intro earlier member
        refine Function.update_of_ne ?_ _ _
        exact apart _ (List.mem_cons_of_mem _ (List.mem_map_of_mem member)) _ (by simp)
      · exact Function.update_self _ _ _
      · exact Function.update_self _ _ _
      · exact fun place member => Function.update_of_ne (notAfter place member) _ _
      · intro place member
        refine Function.update_of_ne ?_ _ _
        rintro rfl
        rcases List.mem_append.mp member with member | member
        · exact fresh member
        · simp at member

theorem Represents.moveFront (represents : links.Represents (before ++ node :: after)) :
    ((links.unlink node).pushFront node).Represents (node :: (before ++ after)) := by
  refine represents.unlink.pushFront ?_
  have fresh := (List.nodup_middle.mp represents.nodup)
  exact (List.nodup_cons.mp fresh).1

end Operations

section Search

variable {links : Links Node} {first last : Option Node} {nodes : List Node} {found : Node → Bool}
  {fuel : ℕ}

omit [DecidableEq Node]

/-- `for(b = …; b != &head; b = step(b)) if(found(b)) return b;` -/
def search (step : Option Node → Option Node) (found : Node → Bool) :
    ℕ → Option Node → Option Node
  | 0, _ | _, none => none
  | fuel + 1, some node =>
      if found node then some node else search step found fuel (step (some node))

theorem Segment.search_next (segment : links.Segment first nodes none)
    (enough : nodes.length ≤ fuel) :
    search links.next found fuel (links.next first) = nodes.find? found := by
  induction nodes generalizing first fuel with
  | nil =>
      rw [segment.1]
      cases fuel <;> rfl
  | cons node nodes ih =>
      obtain ⟨forward, -, rest⟩ := segment
      obtain ⟨fuel, rfl⟩ : ∃ n, fuel = n + 1 := ⟨fuel - 1, by simp at enough; omega⟩
      rw [forward, search, List.find?_cons]
      cases same : found node with
      | true => rfl
      | false => exact ih rest (Nat.le_of_succ_le_succ enough)

theorem Segment.search_prev (segment : links.Segment none nodes last)
    (enough : nodes.length ≤ fuel) :
    search links.prev found fuel (links.prev last) = nodes.reverse.find? found := by
  induction nodes using List.reverseRecOn generalizing last fuel with
  | nil =>
      rw [segment.2]
      cases fuel <;> rfl
  | append_singleton nodes node ih =>
      obtain ⟨before, -, back⟩ := segment_append.mp segment
      rw [List.length_append] at enough
      obtain ⟨fuel, rfl⟩ : ∃ n, fuel = n + 1 := ⟨fuel - 1, by simp at enough; omega⟩
      rw [back, search, List.reverse_append, List.reverse_singleton, List.singleton_append,
        List.find?_cons]
      cases same : found node with
      | true => rfl
      | false => exact ih before (Nat.le_of_succ_le_succ enough)

end Search

end Links

end Ence360.Semantics
