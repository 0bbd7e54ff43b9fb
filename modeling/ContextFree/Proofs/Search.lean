import ContextFree.Search
import Mathlib.Logic.Relation

/-!
# Searching finds what is reachable

`Search.Explores edges a s` is what holds at any moment of a search from `a`. All that were
met can be reached. Those in the queue were met. Whoever was met and has left the queue has
had all its edges followed.

When the queue is empty, the third part says that what was met is closed under the edges,
and with the first part it is exactly what can be reached.

One number is kept along: so many steps have been taken as were met and have left the
queue. At the end these are all that were met, so the search takes one step for each of
them, whatever the edges are. That is to say that none of them was queued twice.
-/

namespace ContextFree

variable {α : Type} [Ord α] [Std.TransOrd α]

/-! ## How long it takes -/

section Length

namespace Search

variable {s : Search α}

/-- The queue grows by as many as are met for the first time. -/
theorem size_foldl_meet (bs : List α) (s : Search α) :
    (bs.foldl meet s).met.size + s.queue.length =
      s.met.size + (bs.foldl meet s).queue.length := by
  induction bs generalizing s with
  | nil => rfl
  | cons b rest ih =>
    have hone : (s.meet b).met.size + s.queue.length =
        s.met.size + (s.meet b).queue.length := by
      unfold meet
      split
      · rfl
      · rename_i hnew
        rw [Std.ExtTreeSet.size_insert, if_neg (mt Std.ExtTreeSet.contains_iff_mem.mp hnew),
          List.length_append, List.length_singleton]
        omega
    have hrest := ih (s.meet b)
    rw [List.foldl_cons]
    omega

variable [DecidableEq α]

theorem step_cases (edges : List (α × α)) (s : Search α) :
    s.queue = [] ∧ s.step edges = s ∨
      ∃ b rest, s.queue = b :: rest ∧
        s.step edges = (targets edges b).foldl meet { s with queue := rest } := by
  unfold step
  split
  · exact .inl ⟨‹_›, rfl⟩
  · exact .inr ⟨_, _, ‹_›, rfl⟩

/-- A step moves one from the queue to those whose edges have been followed. -/
theorem size_step (edges : List (α × α)) (h : s.queue ≠ []) :
    (s.step edges).met.size + s.queue.length =
      s.met.size + (s.step edges).queue.length + 1 := by
  rcases step_cases edges s with ⟨hnil, _⟩ | ⟨b, rest, hqueue, hstep⟩
  · exact absurd hnil h
  · have hgrow := size_foldl_meet (targets edges b) { s with queue := rest }
    rw [← hstep] at hgrow
    rw [hqueue, List.length_cons]
    show (s.step edges).met.size + (rest.length + 1) = _
    have hrest : (s.step edges).met.size + rest.length =
        s.met.size + (s.step edges).queue.length := hgrow
    omega

/-- The search after so many steps. -/
def steps (edges : List (α × α)) : Nat → Search α → Search α
  | 0, s => s
  | n + 1, s => steps edges n (s.step edges)

/-- A search stops with the first step that leaves its queue empty. -/
theorem exists_steps (edges : List (α × α)) (s : Search α) :
    ∃ n, Search.steps edges n s = { met := s.run edges, queue := [] } ∧
      (∀ i < n, (Search.steps edges i s).queue ≠ []) ∧
      n + s.met.size = (s.run edges).size + s.queue.length := by
  fun_induction run edges s with
  | case1 s hqueue =>
    refine ⟨0, ?_, fun i hi => absurd hi (Nat.not_lt_zero i), ?_⟩
    · show s = _
      rw [← hqueue]
    · rw [hqueue, List.length_nil]
      omega
  | case2 s hqueue ih =>
    obtain ⟨n, hsteps, hbefore, hsize⟩ := ih
    have hmoved := size_step edges hqueue
    refine ⟨n + 1, hsteps, fun i hi => ?_, by omega⟩
    cases i with
    | zero => exact hqueue
    | succ i => exact hbefore i (by omega)

end Search

/-- **It takes as many steps as there is to be reached**, so nobody is queued twice. -/
theorem steps_reachable [DecidableEq α] (edges : List (α × α)) (a : α) :
    Search.steps edges (reachable edges a).size (Search.start a) =
        { met := reachable edges a, queue := [] } ∧
      ∀ i < (reachable edges a).size,
        (Search.steps edges i (Search.start a)).queue ≠ [] := by
  obtain ⟨n, hsteps, hbefore, hsize⟩ := Search.exists_steps edges (Search.start a)
  have hn : n = (reachable edges a).size := by
    have hone : (Search.start a).met.size = 1 := by
      simp [Search.start, Std.ExtTreeSet.size_insert]
    have hlength : (Search.start a).queue.length = 1 := rfl
    show n = ((Search.start a).run edges).size
    omega
  rw [← hn]
  exact ⟨hsteps, hbefore⟩

end Length

/-! ## What is met -/

namespace Search

variable {s : Search α}

theorem mem_queue_meet {b c : α} : c ∈ (s.meet b).queue ↔ c ∈ s.queue ∨ c = b ∧ b ∉ s.met := by
  unfold meet
  split
  · rename_i hmet
    simp [hmet]
  · rename_i hnew
    simp [hnew]

variable [Std.LawfulEqOrd α]

theorem mem_meet {b c : α} : c ∈ (s.meet b).met ↔ c = b ∨ c ∈ s.met := by
  unfold meet
  split
  · rename_i hmet
    exact ⟨.inr, fun h => h.elim (fun heq => heq ▸ hmet) id⟩
  · rw [Std.ExtTreeSet.mem_insert, Std.LawfulEqCmp.compare_eq_iff_eq, eq_comm]

theorem mem_foldl_meet {bs : List α} {c : α} :
    c ∈ (bs.foldl meet s).met ↔ c ∈ bs ∨ c ∈ s.met := by
  induction bs generalizing s with
  | nil => simp
  | cons b rest ih =>
    rw [List.foldl_cons, ih, mem_meet, List.mem_cons, or_left_comm, or_assoc]

theorem mem_start_met {a b : α} : b ∈ (Search.start a).met ↔ b = a := by
  show b ∈ (∅ : Std.ExtTreeSet α).insert a ↔ b = a
  rw [Std.ExtTreeSet.mem_insert, Std.LawfulEqCmp.compare_eq_iff_eq, eq_comm]
  exact or_iff_left Std.ExtTreeSet.not_mem_empty

/-- Who is met for the first time joins the queue, and nobody leaves it. -/
theorem mem_queue_foldl_meet {bs : List α} {c : α} :
    c ∈ (bs.foldl meet s).queue ↔ c ∈ s.queue ∨ c ∈ bs ∧ c ∉ s.met := by
  induction bs generalizing s with
  | nil => simp
  | cons b rest ih =>
    rw [List.foldl_cons, ih, mem_queue_meet, mem_meet, List.mem_cons]
    by_cases hcb : c = b
    · rw [hcb]
      by_cases hmet : b ∈ s.met <;> simp [hmet]
    · simp [hcb]

end Search

/-- One can be reached from the other along the edges. -/
abbrev Reaches {α : Type} (edges : List (α × α)) : α → α → Prop :=
  Relation.ReflTransGen fun b c => (b, c) ∈ edges

namespace Search

variable [Std.LawfulEqOrd α] {edges : List (α × α)} {a : α} {s : Search α}

/-- The search from `a` has not gone wrong, and is complete but for its queue. -/
structure Explores (edges : List (α × α)) (a : α) (s : Search α) : Prop where
  /-- The one it started from was met. -/
  start : a ∈ s.met
  /-- All that were met can be reached. -/
  sound : ∀ b ∈ s.met, Reaches edges a b
  /-- Who is in the queue was met. -/
  queued : ∀ b ∈ s.queue, b ∈ s.met
  /-- Who was met and is not in the queue has had all edges followed. -/
  followed : ∀ b ∈ s.met, b ∉ s.queue → ∀ c, (b, c) ∈ edges → c ∈ s.met

theorem explores_start (edges : List (α × α)) (a : α) : (start a).Explores edges a where
  start := mem_start_met.mpr rfl
  sound := by
    intro b hb
    rw [mem_start_met.mp hb]
  queued := by
    intro b hb
    exact mem_start_met.mpr (List.mem_singleton.mp hb)
  followed := by
    intro b hb hnot
    exact absurd (List.mem_singleton.mpr (mem_start_met.mp hb)) hnot

variable [DecidableEq α]

/-- **A step keeps all of it.** -/
theorem Explores.step (h : s.Explores edges a) : (s.step edges).Explores edges a := by
  rcases step_cases edges s with ⟨_, hstep⟩ | ⟨b, rest, hqueue, hstep⟩
  · rw [hstep]
    exact h
  have hb : b ∈ s.met := h.queued b (by rw [hqueue]; exact List.mem_cons_self)
  have hmet : ∀ c, c ∈ (s.step edges).met ↔ (b, c) ∈ edges ∨ c ∈ s.met := by
    intro c
    rw [hstep, mem_foldl_meet, mem_targets]
  have hleft : ∀ c, c ∈ (s.step edges).queue ↔ c ∈ rest ∨ (b, c) ∈ edges ∧ c ∉ s.met := by
    intro c
    rw [hstep, mem_queue_foldl_meet, mem_targets]
  refine ⟨(hmet a).mpr (.inr h.start), fun c hc => ?_, fun c hc => ?_, fun c hc hnot d hd => ?_⟩
  · rcases (hmet c).mp hc with hedge | hc
    · exact (h.sound b hb).tail hedge
    · exact h.sound c hc
  · rcases (hleft c).mp hc with hc | ⟨hedge, _⟩
    · refine (hmet c).mpr (.inr (h.queued c ?_))
      rw [hqueue]
      exact List.mem_cons_of_mem _ hc
    · exact (hmet c).mpr (.inl hedge)
  · -- nobody new is out of the queue, so `c` was met before: it is `b`, or was out already
    have hold : c ∈ s.met := by
      rcases (hmet c).mp hc with hedge | hc
      · by_cases hcmet : c ∈ s.met
        · exact hcmet
        · exact absurd ((hleft c).mpr (.inr ⟨hedge, hcmet⟩)) hnot
      · exact hc
    by_cases hcb : c = b
    · rw [hcb] at hd
      exact (hmet d).mpr (.inl hd)
    · have hout : c ∉ s.queue := by
        rw [hqueue]
        intro hmem
        rcases List.mem_cons.mp hmem with heq | hmem
        · exact hcb heq
        · exact hnot ((hleft c).mpr (.inl hmem))
      exact (hmet d).mpr (.inr (h.followed c hold hout d hd))

theorem Explores.steps (h : s.Explores edges a) (n : Nat) :
    (Search.steps edges n s).Explores edges a := by
  induction n generalizing s with
  | zero => exact h
  | succ n ih => exact ih h.step

end Search

/-- **A search finds what can be reached and nothing else.** -/
theorem mem_reachable_iff [DecidableEq α] [Std.LawfulEqOrd α] {edges : List (α × α)} {a b : α} :
    b ∈ reachable edges a ↔ Reaches edges a b := by
  obtain ⟨n, hsteps, _, _⟩ := Search.exists_steps edges (Search.start a)
  have hexplores := (Search.explores_start edges a).steps n
  rw [hsteps] at hexplores
  constructor
  · exact hexplores.sound b
  · intro h
    induction h with
    | refl => exact hexplores.start
    | tail _ hedge ih => exact hexplores.followed _ ih List.not_mem_nil _ hedge

end ContextFree
