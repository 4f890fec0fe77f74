import Mathlib.Data.List.Nodup
import Mathlib.Tactic.Common

/-!
# Paths along a link

`Path next first nodes last` follows `next` from `first` through `nodes`, the last
of which is `last`; `Leads` goes one link further. A ring leads back to its first
node.
-/

set_option autoImplicit false

namespace Ence360.Semantics

variable {Node : Type}

def Path (next : Node → Node) : Node → List Node → Node → Prop
  | first, [], last => first = last
  | first, node :: nodes, last => next first = node ∧ Path next node nodes last

def Leads (next : Node → Node) : Node → List Node → Node → Prop
  | first, [], target => next first = target
  | first, node :: nodes, target => next first = node ∧ Leads next node nodes target

/-- The nodes of a ring other than `head`, in the order of the links. -/
def IsRing (next : Node → Node) (head : Node) (nodes : List Node) : Prop :=
  Leads next head nodes head

section Paths

variable {next other : Node → Node} {first start middle last : Node} {nodes more : List Node}

theorem Path.last_mem (path : Path next first nodes last) : last ∈ first :: nodes := by
  induction nodes generalizing first with
  | nil =>
      rw [path]
      exact List.mem_cons_self
  | cons node nodes ih => exact List.mem_cons_of_mem _ (ih path.2)

theorem Path.last_eq {node : Node} (path : Path next first (nodes ++ [node]) last) :
    last = node := by
  induction nodes generalizing first with
  | nil => exact path.2.symm
  | cons second nodes ih => exact ih path.2

theorem leads_append {target : Node} : Leads next first (nodes ++ more) target ↔
    ∃ middle, Path next first nodes middle ∧ Leads next middle more target := by
  induction nodes generalizing first with
  | nil => simp [Path]
  | cons node nodes ih => simp [Path, Leads, ih, and_assoc]

theorem Leads.map_next {target : Node} (leads : Leads next first nodes target) :
    (first :: nodes).map next = nodes ++ [target] := by
  induction nodes generalizing first with
  | nil => exact congrArg (fun node => [node]) leads
  | cons node nodes ih =>
      rw [List.map_cons, ih leads.2, leads.1]
      rfl

theorem Leads.trans {target : Node} (first : Leads next start nodes middle)
    (second : Leads next middle more target) :
    Leads next start (nodes ++ middle :: more) target := by
  induction nodes generalizing start with
  | nil => exact ⟨first, second⟩
  | cons node nodes ih => exact ⟨first.1, ih first.2⟩

/-- What a node leads to is where its link goes. -/
theorem Leads.congr {target : Node} (leads : Leads next first nodes target)
    (source : other start = next first) (same : ∀ node ∈ nodes, other node = next node) :
    Leads other start nodes target := by
  induction nodes generalizing first start with
  | nil => exact source.trans leads
  | cons node nodes ih =>
      refine ⟨source.trans leads.1, ih leads.2 (same node List.mem_cons_self) ?_⟩
      exact fun node member => same node (List.mem_cons_of_mem _ member)

/-- A path is kept when only the link of its last node is changed. -/
theorem Path.congr (path : Path next first nodes last) (distinct : (first :: nodes).Nodup)
    (same : ∀ node ∈ first :: nodes, node ≠ last → other node = next node) :
    Path other first nodes last := by
  induction nodes generalizing first with
  | nil => exact path
  | cons node nodes ih =>
      obtain ⟨link, rest⟩ := path
      obtain ⟨fresh, distinct⟩ := List.nodup_cons.mp distinct
      have notLast : first ≠ last := fun same => fresh (same ▸ rest.last_mem)
      refine ⟨(same first List.mem_cons_self notLast).trans link, ih rest distinct ?_⟩
      exact fun node member => same node (List.mem_cons_of_mem _ member)

end Paths

section Rings

variable {next other : Node → Node} {head start : Node} {nodes before after : List Node}

/-- A ring seen from another of its nodes. -/
theorem IsRing.rotate (ring : IsRing next head (before ++ start :: after)) :
    IsRing next start (after ++ head :: before) := by
  obtain ⟨middle, toStart, link, rest⟩ := leads_append.mp ring
  have back : Leads next head (before ++ []) start := leads_append.mpr ⟨middle, toStart, link⟩
  rw [List.append_nil] at back
  exact rest.trans back

theorem IsRing.from_member (ring : IsRing next head nodes) (member : start ∈ head :: nodes) :
    ∃ others, IsRing next start others ∧ (start :: others).Perm (head :: nodes) := by
  rcases List.mem_cons.mp member with rfl | member
  · exact ⟨nodes, ring, .refl _⟩
  · obtain ⟨before, after, rfl⟩ := List.append_of_mem member
    refine ⟨_, ring.rotate, ?_⟩
    have swapped : (start :: after ++ head :: before).Perm (head :: before ++ start :: after) :=
      List.perm_append_comm
    exact swapped

theorem IsRing.nodup_map (ring : IsRing next head nodes) (distinct : (head :: nodes).Nodup) :
    ((head :: nodes).map next).Nodup := by
  rw [Leads.map_next ring]
  exact (List.perm_append_singleton head nodes).nodup_iff.mpr distinct

/-- Each node has one predecessor in a ring. -/
theorem IsRing.predecessor {node previous : Node}
    (ring : IsRing next head (before ++ node :: after))
    (distinct : (head :: (before ++ node :: after)).Nodup)
    (member : previous ∈ head :: (before ++ node :: after)) (link : next previous = node) :
    Path next head before previous := by
  have injective := List.inj_on_of_nodup_map (ring.nodup_map distinct)
  obtain ⟨middle, toNode, reaches, -⟩ := leads_append.mp ring
  have among : middle ∈ head :: (before ++ node :: after) := by
    have member := toNode.last_mem
    rw [List.mem_cons] at member ⊢
    exact member.imp_right (List.mem_append_left _)
  have same : middle = previous := injective among member (reaches.trans link.symm)
  rwa [← same]

end Rings

section Search

variable {next : Node → Node} {first : Node} {nodes : List Node} {found : Node → Bool}

/-- `for(p = first; !found(p); p = next(p))`. -/
def seek (next : Node → Node) (found : Node → Bool) : ℕ → Node → Option Node
  | 0, _ => none
  | fuel + 1, node => if found node then some node else seek next found fuel (next node)

theorem seek_mono {fuel more : ℕ} {node : Node} (le : fuel ≤ more)
    (result : seek next found fuel first = some node) :
    seek next found more first = some node := by
  induction fuel generalizing first more with
  | zero => cases result
  | succ fuel ih =>
      obtain ⟨more, rfl⟩ : ∃ n, more = n + 1 := ⟨more - 1, by omega⟩
      rw [seek] at result ⊢
      by_cases here : found first = true
      · rwa [if_pos here] at result ⊢
      · rw [if_neg here] at result ⊢
        exact ih (Nat.le_of_succ_le_succ le) result

theorem Leads.seek {goal target : Node} {fuel : ℕ} (leads : Leads next first nodes goal)
    (member : target ∈ first :: nodes)
    (only : ∀ node ∈ first :: nodes, found node = true ↔ node = target)
    (enough : nodes.length < fuel) : seek next found fuel first = some target := by
  induction nodes generalizing first fuel with
  | nil =>
      obtain ⟨fuel, rfl⟩ : ∃ n, fuel = n + 1 := ⟨fuel - 1, by omega⟩
      obtain rfl : target = first := List.mem_singleton.mp member
      rw [Semantics.seek, if_pos ((only target List.mem_cons_self).mpr rfl)]
  | cons node nodes ih =>
      obtain ⟨fuel, rfl⟩ : ∃ n, fuel = n + 1 := ⟨fuel - 1, by omega⟩
      obtain ⟨rfl, rest⟩ := leads
      rw [Semantics.seek]
      split
      · next here =>
          rw [(only first List.mem_cons_self).mp here]
      · next passed =>
          have other : target ≠ first := fun same =>
            passed ((only first List.mem_cons_self).mpr same.symm)
          refine ih rest ((List.mem_cons.mp member).resolve_left other) ?_
            (Nat.lt_of_succ_lt_succ enough)
          exact fun node member => only node (List.mem_cons_of_mem _ member)

/-- A node that alone meets the condition is found from everywhere in the ring. -/
theorem IsRing.seek {head start target : Node} {fuel : ℕ} (ring : IsRing next head nodes)
    (from_ : start ∈ head :: nodes) (member : target ∈ head :: nodes)
    (only : ∀ node ∈ head :: nodes, found node = true ↔ node = target)
    (enough : nodes.length < fuel) : Semantics.seek next found fuel start = some target := by
  obtain ⟨others, leads, same⟩ := ring.from_member from_
  have short : others.length = nodes.length := by simpa using same.length_eq
  refine Leads.seek leads (same.mem_iff.mpr member) ?_ (by omega)
  exact fun node member => only node (same.mem_iff.mp member)

end Search

end Ence360.Semantics
