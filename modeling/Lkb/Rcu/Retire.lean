import Lkb.Rcu.Output
import Lkb.Rcu.Unload

/-!
# The nodes that leave the list of `rcu`

Two nodes leave the list. The deletion takes `val[2]` off it and hands it to `call_rcu`. The update
puts the static `new_node` in the place of `val[1]`, and nothing is done with `val[1]` after that:
no pointer to it is left but the one in the array, and it is never freed (`retired_iff_ne_one`).
So the law that a node is on the list or is reclaimed once holds exactly as long as there is no
`val[1]` (`reclaimed_iff`).
-/

namespace Lkb.Rcu

open CircularList Run

variable {N : Element} {s : State} {i : ℕ}

/-- The node is on the list and was not handed to `call_rcu`. -/
def State.OnList (s : State) (x : Node) : Prop := Reaches s.links .head x ∧ x ∉ s.called

/-- The node is off the list and was handed to `call_rcu` once. -/
def State.Retired (s : State) (x : Node) : Prop :=
  ¬Reaches s.links .head x ∧ s.called.count x = 1

/-- Every node of the array is on the list or retired, and only nodes of the array were handed to
`call_rcu`. -/
structure Reclaimed (N : Element) (s : State) : Prop where
  nodes : ∀ i < N.val, s.OnList (.val i) ∨ s.Retired (.val i)
  called : ∀ x ∈ s.called, ∃ i < N.val, x = .val i

/-- The nodes of the array that the last traversal finds. -/
theorem val_mem_read2 : .val i ∈ input N .read2 ↔ i < N.val ∧ i ≠ 1 ∧ i ≠ 2 := by
  have hupdate : .val i ∈ input N .read1 ↔ i < N.val ∧ i ≠ 1 := by
    have hread1 : input N .read1 = (built N.val).map fun x => if x = .val 1 then .newNode else x :=
      flatMap_keep_update _
    rw [hread1, List.mem_map]
    constructor
    · rintro ⟨x, hx, hxi⟩
      obtain ⟨j, hj, rfl⟩ := mem_built.1 hx
      split_ifs at hxi with h1
      cases hxi
      exact ⟨hj, fun h => h1 (by rw [h])⟩
    · rintro ⟨hi, h1⟩
      exact ⟨.val i, mem_built.2 ⟨i, hi, rfl⟩, if_neg (by simpa using h1)⟩
  have hread2 : input N .read2 = (input N .read1).filter (· ≠ .val 2) := flatMap_keep_delete _
  rw [hread2, List.mem_filter, hupdate]
  simp [and_assoc]

/-- **What becomes of the nodes.** When `start` has returned 0, every node of the array is on the
list or retired, except for the one that was replaced. -/
theorem At.retired_iff_ne_one (h : At N s.memory s.pc) (hpc : s.pc = .returned 0)
    (hi : i < N.val) : s.OnList (.val i) ∨ s.Retired (.val i) ↔ i ≠ 1 := by
  obtain ⟨hring, hcalled⟩ := h.returned hpc
  have hreach : Reaches s.links .head (.val i) ↔ i ≠ 1 ∧ i ≠ 2 := by
    rw [hring.reaches_iff, List.mem_cons, val_mem_read2]
    simp [hi]
  unfold State.OnList State.Retired
  rw [hreach, hcalled]
  by_cases h1 : i = 1
  · have hcount : (if N.val ≤ 2 then [] else [Node.val 2]).count (.val 1) = 0 := by
      split_ifs <;> simp
    simp [h1, hcount]
  · by_cases h2 : i = 2
    · have hN : ¬N.val ≤ 2 := by omega
      simp [h2, hN]
    · have hmem : .val i ∉ if N.val ≤ 2 then [] else [Node.val 2] := by
        split_ifs <;> simp [h2]
      simp [h1, h2, hmem]

/-- **When the nodes are reclaimed.** For every value of `element` and in every run in which `start`
has returned 0: every node of the array is on the list and was not handed to `call_rcu`, or is off
the list and was handed over once, and nothing else was handed over, exactly when `element` is at
most 1. -/
theorem reclaimed_iff (N : Element) (data : Node → BitVec 32) (links : Links Node)
    {es : List Event} (h : Runs (step N) (load data links) es s) (hpc : s.pc = .returned 0) :
    Reclaimed N s ↔ N.val ≤ 1 := by
  have hat : At N s.memory s.pc := at_of_runs h
  constructor
  · intro hrec
    by_contra hN
    have hone := (hat.retired_iff_ne_one hpc (by omega)).1 (hrec.nodes 1 (by omega))
    exact hone rfl
  · intro hN
    refine ⟨fun i hi => (hat.retired_iff_ne_one hpc hi).2 (by omega), fun x hx => ?_⟩
    have hle : N.val ≤ 2 := by omega
    rw [(hat.returned hpc).2, if_pos hle] at hx
    cases hx

/-- The only node of a list of one element stays on it. -/
theorem reclaimed_iff_sample :
    ∃ s, Runs (step ⟨1, by decide⟩) (load (fun _ => 0) ⟨.node, .node⟩)
      (List.replicate 45 (.start true)) s ∧ s.pc = .returned 0 ∧ Reclaimed ⟨1, by decide⟩ s := by
  have hend : ((List.replicate 45 (.start true)).foldlM (step ⟨1, by decide⟩)
      (load (fun _ => 0) ⟨.node, .node⟩)).map (·.pc) = some (.returned 0) := by
    decide +kernel
  obtain ⟨s, hrun, hpc⟩ := Option.map_eq_some_iff.1 hend
  exact ⟨s, hrun, hpc, (reclaimed_iff _ _ _ hrun hpc).2 le_rfl⟩

/-- With the five elements of the source, the node that was replaced is lost. -/
theorem not_reclaimed_five :
    ∃ s, Runs (step .five) (load (fun _ => 0) ⟨.node, .node⟩)
      (List.replicate 156 (.start true)) s ∧ s.pc = .returned 0 ∧ ¬Reclaimed .five s := by
  have hend : ((List.replicate 156 (.start true)).foldlM (step .five)
      (load (fun _ => 0) ⟨.node, .node⟩)).map (·.pc) = some (.returned 0) := by
    decide +kernel
  obtain ⟨s, hrun, hpc⟩ := Option.map_eq_some_iff.1 hend
  refine ⟨s, hrun, hpc, fun hrec => ?_⟩
  have hone := ((at_of_runs hrun).retired_iff_ne_one hpc (by decide)).1
    (hrec.nodes 1 (by decide))
  exact hone rfl

end Lkb.Rcu
