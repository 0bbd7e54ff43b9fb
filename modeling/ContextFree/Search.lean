import Std.Data.ExtTreeSet

/-!
# Breadth-first search

What can be reached along the edges of a finite graph. The graph is a list of edges, and
the search keeps a queue of those whose edges have not been followed yet. Whoever is met
for the first time is noted and queued, so nobody is queued twice, and a cycle ends where
it began.

Taking one from the queue makes it shorter. Every other one that joins it is the end of an
edge nobody had come along, of which there is one less from then on. So the edges to those
not met yet and the queue together get fewer with every step.
-/

namespace ContextFree

/-!
## What a growing set has left to take in

A loop that fills a set ends because there is only so much to fill it with. What counts is
the list of things that have not been seen to: those whose key is not in the set. It never
gets longer as the set grows, and is shorter once the set takes a key of the list in. A
search is such a loop, and so is going through a list again and again.
-/

section Remaining

variable {α β : Type} [Ord α] [Std.TransOrd α]

/-- The members of a list whose keys are not in a set. -/
def remaining (key : β → α) (bs : List β) (known : Std.ExtTreeSet α) : List β :=
  bs.filter (key · ∉ known)

theorem length_remaining_lt {key : β → α} {bs : List β} {known larger : Std.ExtTreeSet α}
    (hsub : ∀ a ∈ known, a ∈ larger) {b : β} (hb : b ∈ bs) (hnew : key b ∉ known)
    (hadded : key b ∈ larger) :
    (remaining key bs larger).length < (remaining key bs known).length := by
  have hfilter : remaining key bs larger = (remaining key bs known).filter (key · ∉ larger) := by
    unfold remaining
    rw [List.filter_filter]
    refine List.filter_congr fun c _ => ?_
    by_cases hc : key c ∈ known
    · simp [hsub _ hc]
    · simp [hc]
  have hmem : b ∈ remaining key bs known := List.mem_filter.mpr ⟨hb, decide_eq_true hnew⟩
  rw [hfilter]
  refine List.length_filter_lt_length_iff_exists.mpr ⟨b, hmem, fun hnone => ?_⟩
  exact of_decide_eq_true hnone hadded

end Remaining

/-! ## Searches -/

/-- Where the edges from `a` lead, in order. -/
def targets {α : Type} [DecidableEq α] (edges : List (α × α)) (a : α) : List α :=
  (edges.filter (·.1 = a)).map Prod.snd

theorem mem_targets {α : Type} [DecidableEq α] {edges : List (α × α)} {a b : α} :
    b ∈ targets edges a ↔ (a, b) ∈ edges := by
  simp [targets]

/-- A search under way: all that were met, and those whose edges are still to be followed. -/
structure Search (α : Type) [Ord α] where
  met : Std.ExtTreeSet α
  queue : List α

variable {α : Type} [Ord α] [Std.TransOrd α]

namespace Search

/-- The beginning of a search. -/
def start (a : α) : Search α where
  met := {a}
  queue := [a]

/-- Comes to `a`, which may be new. -/
def meet (s : Search α) (a : α) : Search α :=
  if a ∈ s.met then s else { met := s.met.insert a, queue := s.queue ++ [a] }

/-- Takes the first one from the queue and follows its edges. -/
def step [DecidableEq α] (edges : List (α × α)) (s : Search α) : Search α :=
  match s.queue with
  | [] => s
  | a :: rest => (targets edges a).foldl meet { s with queue := rest }

/-! ## Searching ends -/

/-- The edges to those who were not met. -/
def unmet (edges : List (α × α)) (s : Search α) : List (α × α) :=
  remaining Prod.snd edges s.met

/-- What a search has before it. -/
def load (edges : List (α × α)) (s : Search α) : Nat :=
  (s.unmet edges).length + s.queue.length

/-- Whoever is queued is no longer unmet. -/
theorem load_meet_le {edges : List (α × α)} {s : Search α} {e : α × α} (he : e ∈ edges) :
    (s.meet e.2).load edges ≤ s.load edges := by
  unfold meet
  split
  · exact Nat.le_refl _
  · rename_i hnew
    have hlt : (remaining Prod.snd edges (s.met.insert e.2)).length < (s.unmet edges).length :=
      length_remaining_lt (fun _ ha => Std.ExtTreeSet.mem_insert.mpr (.inr ha)) he hnew
        Std.ExtTreeSet.mem_insert_self
    show (remaining Prod.snd edges (s.met.insert e.2)).length + (s.queue ++ [e.2]).length ≤
      (s.unmet edges).length + s.queue.length
    rw [List.length_append, List.length_singleton]
    omega

theorem load_foldl_meet_le {edges : List (α × α)} {as : List α} {s : Search α}
    (h : ∀ a ∈ as, ∃ e ∈ edges, e.2 = a) : (as.foldl meet s).load edges ≤ s.load edges := by
  induction as generalizing s with
  | nil => exact Nat.le_refl _
  | cons a rest ih =>
    obtain ⟨⟨e, he, rfl⟩, hrest⟩ := List.forall_mem_cons.mp h
    exact Nat.le_trans (ih hrest) (load_meet_le he)

theorem load_step_lt [DecidableEq α] {edges : List (α × α)} {s : Search α} (h : s.queue ≠ []) :
    (s.step edges).load edges < s.load edges := by
  unfold step
  split
  · exact absurd ‹_› h
  · rename_i a rest hqueue
    have hends : ∀ b ∈ targets edges a, ∃ e ∈ edges, e.2 = b :=
      fun b hb => ⟨(a, b), mem_targets.mp hb, rfl⟩
    have hle := load_foldl_meet_le (s := { s with queue := rest }) hends
    have hpop : load edges { s with queue := rest } < s.load edges := by
      show (s.unmet edges).length + rest.length < (s.unmet edges).length + s.queue.length
      rw [hqueue, List.length_cons]
      omega
    omega

/-- Searches until the queue is empty, and gives all that were met. -/
def run [DecidableEq α] (edges : List (α × α)) (s : Search α) : Std.ExtTreeSet α :=
  if s.queue = [] then s.met else run edges (s.step edges)
termination_by s.load edges
decreasing_by exact load_step_lt ‹_›

end Search

/-- All that can be reached from `a` along the edges, itself included. -/
def reachable [DecidableEq α] (edges : List (α × α)) (a : α) : Std.ExtTreeSet α :=
  (Search.start a).run edges

end ContextFree
