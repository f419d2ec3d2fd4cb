import Mathlib.Algebra.GroupWithZero.Nat
import Mathlib.Logic.Relation
import Mathlib.Data.List.Dedup
import Mathlib.Data.Finset.Card
import Mathlib.Algebra.BigOperators.Group.List.Basic

/-! # Reachability by worklist

Two ways code walks a graph with a worklist: marking a node when it is pushed, so that the seeds
are not marked by themselves, and marking it when it is popped. Both run on a fuel that counts pops,
and end before it does when the nodes a walk can meet are listed. -/

namespace Closure

variable {ι : Type} [DecidableEq ι]

/-- `next` leads from `source` to `target` in one step. -/
def Step (next : ι → List ι) (source target : ι) : Prop := target ∈ next source

abbrev Reaches (next : ι → List ι) : ι → ι → Prop := Relation.TransGen (Step next)

/-- Marks what `next` leads to from the queue, each node when it is pushed. -/
def saturate (next : ι → List ι) : Nat → List ι → List ι → List ι
  | fuel + 1, node :: queue, found =>
    let fresh := (next node).dedup.filter (· ∉ found)
    saturate next fuel (fresh ++ queue) (fresh ++ found)
  | _, _, found => found

/-- Marks the stack and what `next` leads to from it, each node when it is popped. -/
def visit (next : ι → List ι) : Nat → List ι → List ι → List ι
  | fuel + 1, node :: stack, seen =>
    if node ∈ seen then visit next fuel stack seen
    else visit next fuel (next node ++ stack) (node :: seen)
  | _, _, seen => seen

section Saturate

variable {next : ι → List ι}

theorem mem_fresh {node target : ι} {found : List ι} :
    target ∈ (next node).dedup.filter (· ∉ found) ↔ Step next node target ∧ target ∉ found := by
  simp [Step]

theorem saturate_sound {fuel : Nat} {queue found : List ι} {target : ι}
    (hmem : target ∈ saturate next fuel queue found) :
    target ∈ found ∨ ∃ source ∈ queue, Reaches next source target := by
  induction fuel generalizing queue found with
  | zero => exact .inl (by simpa [saturate] using hmem)
  | succ fuel ih =>
    cases queue with
    | nil => exact .inl hmem
    | cons node queue =>
      rw [saturate] at hmem
      rcases ih hmem with hfound | ⟨source, hsource, hreach⟩
      · rcases List.mem_append.mp hfound with hfresh | hfound
        · exact .inr ⟨node, by simp, .single (mem_fresh.mp hfresh).1⟩
        · exact .inl hfound
      · rcases List.mem_append.mp hsource with hfresh | hqueue
        · exact .inr ⟨node, by simp, .head (mem_fresh.mp hfresh).1 hreach⟩
        · exact .inr ⟨source, by simp [hqueue], hreach⟩

theorem found_subset_saturate {fuel : Nat} {queue found : List ι} :
    found ⊆ saturate next fuel queue found := by
  induction fuel generalizing queue found with
  | zero => simp [saturate]
  | succ fuel ih =>
    cases queue with
    | nil => simp [saturate]
    | cons node queue =>
      rw [saturate]
      exact fun target hmem => ih (List.mem_append.mpr (.inr hmem))

/-- How many nodes of `nodes` are not yet marked. -/
def left (nodes found : List ι) : Nat := (nodes.filter (· ∉ found)).length

theorem left_append {nodes found fresh : List ι} (hnodes : fresh ⊆ nodes)
    (hnodup : fresh.Nodup) (hdisjoint : ∀ node ∈ fresh, node ∉ found) :
    left nodes (fresh ++ found) + fresh.length ≤ left nodes found := by
  have hsplit : (nodes.filter (· ∉ found)).length = _ :=
    List.length_eq_length_filter_add (· ∈ fresh)
  have hrest : (nodes.filter (· ∉ found)).filter (fun node => !decide (node ∈ fresh)) =
      nodes.filter (· ∉ fresh ++ found) := by
    rw [List.filter_filter]
    congr 1
    funext node
    simp
  have hfresh : fresh.length ≤ ((nodes.filter (· ∉ found)).filter (· ∈ fresh)).length := by
    apply (List.subperm_of_subset hnodup _).length_le
    intro node hmem
    simp [hnodes hmem, hdisjoint node hmem, hmem]
  unfold left
  rw [hrest] at hsplit
  omega

theorem saturate_closed {nodes : List ι} (queue found : List ι)
    (hnodes : ∀ node, next node ⊆ nodes) {fuel : Nat} (hfuel : queue.length + left nodes found ≤ fuel) :
    (∀ source ∈ queue, ∀ target, Step next source target →
        target ∈ saturate next fuel queue found) ∧
      ((∀ source ∈ found, source ∉ queue → ∀ target, Step next source target → target ∈ found) →
        ∀ source ∈ saturate next fuel queue found, ∀ target, Step next source target →
          target ∈ saturate next fuel queue found) := by
  induction fuel generalizing queue found with
  | zero =>
    have hempty : queue = [] := List.length_eq_zero_iff.mp (by omega)
    subst hempty
    exact ⟨by simp, fun hclosed source hmem target hstep =>
      hclosed source hmem (by simp) target hstep⟩
  | succ fuel ih =>
    cases queue with
    | nil =>
      exact ⟨by simp, fun hclosed source hmem target hstep =>
        hclosed source hmem (by simp) target hstep⟩
    | cons node queue =>
      rw [saturate]
      have hleft : left nodes ((next node).dedup.filter (· ∉ found) ++ found) +
          ((next node).dedup.filter (· ∉ found)).length ≤ left nodes found :=
        left_append (fun target hmem => hnodes node (mem_fresh.mp hmem).1)
          ((List.nodup_dedup _).filter _) (fun target hmem => (mem_fresh.mp hmem).2)
      obtain ⟨hqueue, hclosed⟩ := @ih ((next node).dedup.filter (· ∉ found) ++ queue)
        ((next node).dedup.filter (· ∉ found) ++ found) (by
          rw [List.length_append]
          simp only [List.length_cons] at hfuel
          omega)
      have hnode : ∀ target, Step next node target →
          target ∈ (next node).dedup.filter (· ∉ found) ++ found := by
        intro target hstep
        by_cases hfound : target ∈ found
        · exact List.mem_append.mpr (.inr hfound)
        · exact List.mem_append.mpr (.inl (mem_fresh.mpr ⟨hstep, hfound⟩))
      constructor
      · intro source hsource target hstep
        rcases List.mem_cons.mp hsource with rfl | hsource
        · exact found_subset_saturate (hnode target hstep)
        · exact hqueue source (List.mem_append.mpr (.inr hsource)) target hstep
      · intro hbefore
        apply hclosed
        intro source hsource hout target hstep
        rw [List.mem_append, not_or] at hout
        have hsource : source ∈ found := (List.mem_append.mp hsource).resolve_left hout.1
        by_cases hsame : source = node
        · exact hnode target (hsame ▸ hstep)
        · exact List.mem_append.mpr (.inr (hbefore source hsource (by simp [hsame, hout.2])
            target hstep))

/-- **Saturation marks exactly what is reached in one step or more.** -/
theorem mem_saturate_iff {nodes seeds : List ι} (hnodes : ∀ node, next node ⊆ nodes)
    {fuel : Nat} (hfuel : seeds.length + nodes.length ≤ fuel) {target : ι} :
    target ∈ saturate next fuel seeds [] ↔ ∃ source ∈ seeds, Reaches next source target := by
  have hleft : left nodes [] = nodes.length := by simp [left]
  obtain ⟨hseeds, hclosed⟩ := saturate_closed seeds [] hnodes (show _ ≤ fuel by omega)
  constructor
  · intro hmem
    simpa using saturate_sound hmem
  · rintro ⟨source, hsource, hreach⟩
    induction hreach with
    | single hstep => exact hseeds source hsource _ hstep
    | tail _ hstep ih => exact hclosed (by simp) _ ih _ hstep

end Saturate

section Visit

variable {next : ι → List ι}

theorem visit_sound {fuel : Nat} {stack seen : List ι} {target : ι}
    (hmem : target ∈ visit next fuel stack seen) :
    target ∈ seen ∨ ∃ source ∈ stack, Relation.ReflTransGen (Step next) source target := by
  induction fuel generalizing stack seen with
  | zero => exact .inl (by simpa [visit] using hmem)
  | succ fuel ih =>
    cases stack with
    | nil => exact .inl hmem
    | cons node stack =>
      rw [visit] at hmem
      split at hmem
      · rcases ih hmem with hseen | ⟨source, hsource, hreach⟩
        · exact .inl hseen
        · exact .inr ⟨source, by simp [hsource], hreach⟩
      · rcases ih hmem with hseen | ⟨source, hsource, hreach⟩
        · rcases List.mem_cons.mp hseen with rfl | hseen
          · exact .inr ⟨target, by simp, .refl⟩
          · exact .inl hseen
        · rcases List.mem_append.mp hsource with hnext | hstack
          · exact .inr ⟨node, by simp, .head hnext hreach⟩
          · exact .inr ⟨source, by simp [hstack], hreach⟩

theorem seen_subset_visit {fuel : Nat} {stack seen : List ι} :
    seen ⊆ visit next fuel stack seen := by
  induction fuel generalizing stack seen with
  | zero => simp [visit]
  | succ fuel ih =>
    cases stack with
    | nil => simp [visit]
    | cons node stack =>
      rw [visit]
      split
      · exact ih
      · exact fun target hmem => ih (List.mem_cons.mpr (.inr hmem))

/-- What is still to be pushed: the steps out of those of `nodes` not yet marked. -/
def pushes (next : ι → List ι) (nodes seen : List ι) : Nat :=
  (nodes.map fun node => if node ∈ seen then 0 else (next node).length).sum

theorem pushes_mono (nodes seen : List ι) (node : ι) :
    pushes next nodes (node :: seen) ≤ pushes next nodes seen := by
  induction nodes with
  | nil => exact Nat.le_refl _
  | cons first nodes ih =>
    unfold pushes at ih ⊢
    rw [List.map_cons, List.sum_cons, List.map_cons, List.sum_cons]
    apply Nat.add_le_add _ ih
    by_cases hfirst : first ∈ seen
    · simp [hfirst]
    · by_cases hsame : first = node <;> simp [hfirst, hsame]

theorem pushes_le (nodes seen : List ι) : pushes next nodes seen ≤ pushes next nodes [] := by
  induction seen with
  | nil => exact Nat.le_refl _
  | cons node seen ih => exact (pushes_mono nodes seen node).trans ih

theorem pushes_cons {nodes seen : List ι} {node : ι} (hmem : node ∈ nodes) (hseen : node ∉ seen) :
    pushes next nodes (node :: seen) + (next node).length ≤ pushes next nodes seen := by
  induction nodes with
  | nil => cases hmem
  | cons first nodes ih =>
    by_cases hsame : first = node
    · have hrest : pushes next nodes (node :: seen) ≤ pushes next nodes seen :=
        pushes_mono nodes seen node
      unfold pushes at hrest ⊢
      rw [List.map_cons, List.sum_cons, List.map_cons, List.sum_cons, hsame, if_pos (by simp),
        if_neg hseen]
      omega
    · have hrest := ih ((List.mem_cons.mp hmem).resolve_left (Ne.symm hsame))
      have hfirst : (first ∈ node :: seen) = (first ∈ seen) := by simp [hsame]
      unfold pushes at hrest ⊢
      simp only [List.map_cons, List.sum_cons, hfirst]
      omega

theorem visit_closed {nodes : List ι} (stack seen : List ι)
    (hnodes : ∀ node ∉ nodes, next node = []) {fuel : Nat} (hfuel : stack.length + pushes next nodes seen ≤ fuel) :
    (∀ source ∈ stack, source ∈ visit next fuel stack seen) ∧
      ((∀ source ∈ seen, ∀ target, Step next source target → target ∈ seen ∨ target ∈ stack) →
        ∀ source ∈ visit next fuel stack seen, ∀ target, Step next source target →
          target ∈ visit next fuel stack seen) := by
  induction fuel generalizing stack seen with
  | zero =>
    have hempty : stack = [] := List.length_eq_zero_iff.mp (by omega)
    subst hempty
    exact ⟨by simp, fun hclosed source hmem target hstep => by
      simpa [visit] using hclosed source (by simpa [visit] using hmem) target hstep⟩
  | succ fuel ih =>
    cases stack with
    | nil =>
      exact ⟨by simp, fun hclosed source hmem target hstep => by
        simpa [visit] using hclosed source (by simpa [visit] using hmem) target hstep⟩
    | cons node stack =>
      rw [visit]
      simp only [List.length_cons] at hfuel
      split
      next hseen =>
        obtain ⟨hstack, hclosed⟩ := @ih stack seen (by omega)
        refine ⟨fun source hsource => ?_, fun hbefore => hclosed fun source hsource target hstep => ?_⟩
        · rcases List.mem_cons.mp hsource with rfl | hsource
          · exact seen_subset_visit hseen
          · exact hstack source hsource
        · rcases hbefore source hsource target hstep with htarget | htarget
          · exact .inl htarget
          · rcases List.mem_cons.mp htarget with rfl | htarget
            · exact .inl hseen
            · exact .inr htarget
      next hseen =>
        have hpushes : pushes next nodes (node :: seen) + (next node).length ≤
            pushes next nodes seen := by
          by_cases hmem : node ∈ nodes
          · exact pushes_cons hmem hseen
          · rw [hnodes node hmem, List.length_nil, Nat.add_zero]
            exact pushes_mono nodes seen node
        obtain ⟨hstack, hclosed⟩ := @ih (next node ++ stack) (node :: seen) (by
          rw [List.length_append]
          omega)
        refine ⟨fun source hsource => ?_, fun hbefore => hclosed fun source hsource target hstep => ?_⟩
        · rcases List.mem_cons.mp hsource with rfl | hsource
          · exact seen_subset_visit (by simp)
          · exact hstack source (by simp [hsource])
        · rcases List.mem_cons.mp hsource with rfl | hsource
          · exact .inr (List.mem_append.mpr (.inl hstep))
          · rcases hbefore source hsource target hstep with htarget | htarget
            · exact .inl (by simp [htarget])
            · rcases List.mem_cons.mp htarget with rfl | htarget
              · exact .inl (by simp)
              · exact .inr (by simp [htarget])

/-- **A visit marks exactly the stack and what is reached from it.** -/
theorem mem_visit_iff {nodes seeds : List ι} (hnodes : ∀ node ∉ nodes, next node = [])
    {fuel : Nat} (hfuel : seeds.length + pushes next nodes [] ≤ fuel) {target : ι} :
    target ∈ visit next fuel seeds [] ↔
      ∃ source ∈ seeds, Relation.ReflTransGen (Step next) source target := by
  obtain ⟨hseeds, hclosed⟩ := visit_closed seeds [] hnodes hfuel
  constructor
  · intro hmem
    simpa using visit_sound hmem
  · rintro ⟨source, hsource, hreach⟩
    induction hreach with
    | refl => exact hseeds source hsource
    | tail _ hstep ih => exact hclosed (by simp) _ ih _ hstep

end Visit

end Closure
