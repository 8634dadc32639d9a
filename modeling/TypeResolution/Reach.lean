/-
# Names reachable in a graph

A graph on names is a list of nodes with their successors; a name that is not listed has
none. `reach` lists the names that can be reached from given ones, each of them once, in the
order of a depth-first walk that goes through successors from left to right. A name is listed
if and only if a way of zero or more edges leads to it (`mem_reach`).

Key definitions: `successors`, `Way`, `reach`.
Key theorems: `mem_reach`, `nodup_reach`.
-/
import TypeResolution.Name

namespace TypeResolution
namespace Reach

/-- The successors of the listed names. -/
abbrev Graph := List (Name × List Name)

def successors (graph : Graph) (name : Name) : List Name := (graph.lookup name).getD []

/-- A way of zero or more edges from one name to another. -/
inductive Way (graph : Graph) : Name → Name → Prop where
  | refl (name : Name) : Way graph name name
  | step {a b c : Name} : b ∈ successors graph a → Way graph b c → Way graph a c

theorem Way.trans {graph : Graph} {a b c : Name} (hab : Way graph a b) (hbc : Way graph b c) :
    Way graph a c := by
  induction hab with
  | refl => exact hbc
  | step hs _ ih => exact .step hs (ih hbc)

/-- The number of edges that leave nodes outside `reached`. -/
def edgesOutside (graph : Graph) (reached : List Name) : Nat :=
  (graph.flatMap fun node => if node.1 ∈ reached then [] else node.2).length

theorem edgesOutside_cons (node : Name × List Name) (graph : Graph) (reached : List Name) :
    edgesOutside (node :: graph) reached =
      (if node.1 ∈ reached then 0 else node.2.length) + edgesOutside graph reached := by
  rw [edgesOutside, List.flatMap_cons, List.length_append]
  split <;> rfl

theorem edgesOutside_append_le (graph : Graph) (reached : List Name) (name : Name) :
    edgesOutside graph (reached ++ [name]) ≤ edgesOutside graph reached := by
  induction graph with
  | nil => exact Nat.le_refl _
  | cons node graph ih =>
    rw [edgesOutside_cons, edgesOutside_cons]
    by_cases h : node.1 ∈ reached
    · simpa [h] using ih
    · rw [if_neg h]
      split <;> omega

/-- What a name's successors add to the names to visit, its edges take from those outside. -/
theorem length_successors_add_le (graph : Graph) {reached : List Name} {name : Name}
    (h : name ∉ reached) :
    (successors graph name).length + edgesOutside graph (reached ++ [name]) ≤
      edgesOutside graph reached := by
  induction graph with
  | nil => simp [edgesOutside, successors]
  | cons node graph ih =>
    obtain ⟨n, next⟩ := node
    rw [edgesOutside_cons, edgesOutside_cons]
    by_cases hn : name = n
    · subst hn
      have := edgesOutside_append_le graph reached name
      simp only [successors, List.lookup_cons_self, Option.getD_some, List.mem_append,
        List.mem_singleton, or_true, if_true, h, if_false]
      omega
    · have hb : (name == n) = false := by simpa using hn
      have hn' : ¬ n = name := fun he => hn he.symm
      simp only [successors] at ih
      simp only [successors, List.lookup_cons, hb, List.mem_append, List.mem_singleton, hn',
        or_false]
      omega

/-- Visits the pending names and what can be reached from them, given the names reached. -/
def reachFrom (graph : Graph) (pending reached : List Name) : List Name :=
  match pending with
  | [] => reached
  | name :: rest =>
    if name ∈ reached then reachFrom graph rest reached
    else reachFrom graph (successors graph name ++ rest) (reached ++ [name])
termination_by pending.length + edgesOutside graph reached
decreasing_by
  · simp
  · rename_i h
    have := length_successors_add_le graph h
    simp only [List.length_append, List.length_cons]
    omega

/-! ### What is visited -/

/-- Only names to which a way leads are visited. -/
theorem way_of_mem_reachFrom {graph : Graph} {pending reached : List Name} {x : Name}
    (h : x ∈ reachFrom graph pending reached) : x ∈ reached ∨ ∃ p ∈ pending, Way graph p x := by
  fun_induction reachFrom graph pending reached with
  | case1 => exact .inl h
  | case2 reached name rest _ ih =>
    rcases ih h with h | ⟨p, hp, way⟩
    · exact .inl h
    · exact .inr ⟨p, List.mem_cons_of_mem _ hp, way⟩
  | case3 reached name rest _ ih =>
    rcases ih h with h | ⟨p, hp, way⟩
    · rcases List.mem_append.1 h with h | h
      · exact .inl h
      · obtain rfl := List.mem_singleton.1 h
        exact .inr ⟨x, List.mem_cons_self, .refl x⟩
    · rcases List.mem_append.1 hp with hp | hp
      · exact .inr ⟨name, List.mem_cons_self, .step hp way⟩
      · exact .inr ⟨p, List.mem_cons_of_mem _ hp, way⟩

/-- What has been visited stays, and what is pending is visited. -/
theorem mem_reachFrom_of_mem {graph : Graph} {pending reached : List Name} {x : Name}
    (h : x ∈ reached ∨ x ∈ pending) : x ∈ reachFrom graph pending reached := by
  fun_induction reachFrom graph pending reached with
  | case1 => simpa using h
  | case2 reached name rest hn ih =>
    refine ih ?_
    rcases h with h | h
    · exact .inl h
    · rcases List.mem_cons.1 h with rfl | h
      · exact .inl hn
      · exact .inr h
  | case3 reached name rest hn ih =>
    refine ih ?_
    simp only [List.mem_append, List.mem_cons, List.not_mem_nil, or_false] at h ⊢
    grind

/-- If the successors of what has been visited are visited or pending, then in the end the
successors of all that is visited are visited. -/
theorem mem_reachFrom_of_mem_successors {graph : Graph} {pending reached : List Name}
    (h : ∀ r ∈ reached, ∀ s ∈ successors graph r, s ∈ reached ∨ s ∈ pending) :
    ∀ r ∈ reachFrom graph pending reached, ∀ s ∈ successors graph r,
      s ∈ reachFrom graph pending reached := by
  fun_induction reachFrom graph pending reached with
  | case1 => simpa using h
  | case2 reached name rest hn ih =>
    refine ih fun r hr s hs => ?_
    rcases h r hr s hs with h | h
    · exact .inl h
    · rcases List.mem_cons.1 h with rfl | h
      · exact .inl hn
      · exact .inr h
  | case3 reached name rest hn ih =>
    refine ih fun r hr s hs => ?_
    have := h r
    simp only [List.mem_append, List.mem_cons, List.not_mem_nil, or_false] at hr this ⊢
    grind

theorem nodup_reachFrom {graph : Graph} {pending reached : List Name} (h : reached.Nodup) :
    (reachFrom graph pending reached).Nodup := by
  fun_induction reachFrom graph pending reached with
  | case1 => exact h
  | case2 reached name rest _ ih => exact ih h
  | case3 reached name rest hn ih =>
    refine ih (List.nodup_append.2 ⟨h, by simp, ?_⟩)
    grind

end Reach

/-- The given names and all names that can be reached from them. -/
def reach (graph : Reach.Graph) (roots : List Name) : List Name := Reach.reachFrom graph roots []

/-- The names listed are those to which a way from a given name leads. -/
theorem mem_reach {graph : Reach.Graph} {roots : List Name} {x : Name} :
    x ∈ reach graph roots ↔ ∃ r ∈ roots, Reach.Way graph r x := by
  constructor
  · intro h
    simpa using Reach.way_of_mem_reachFrom h
  · rintro ⟨r, hr, way⟩
    have start : r ∈ reach graph roots := Reach.mem_reachFrom_of_mem (.inr hr)
    clear hr
    induction way with
    | refl => exact start
    | step hs _ ih =>
      exact ih (Reach.mem_reachFrom_of_mem_successors (by simp) _ start _ hs)

/-- No name is listed twice. -/
theorem nodup_reach (graph : Reach.Graph) (roots : List Name) : (reach graph roots).Nodup :=
  Reach.nodup_reachFrom List.nodup_nil

end TypeResolution
