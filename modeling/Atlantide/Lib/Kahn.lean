import Mathlib.Data.List.Sort
import Mathlib.Order.WellFoundedSet
import Mathlib.Tactic.Tauto
import Atlantide.Lib.Closure

/-! # Topological sorting by counting predecessors

Every node counts the predecessors it still waits for, and the nodes that wait for none stand in a
heap. Popping a node lowers the count of each of its successors, and pushes those that reach zero. -/

namespace Kahn

variable {ι : Type} [LinearOrder ι]

structure Queue (ι : Type) where
  indegree : ι → Nat
  /-- The heap, in the order it is popped. -/
  ready : List ι

def unblock (queue : Queue ι) (succ : ι) : Queue ι :=
  let left := queue.indegree succ - 1
  { indegree := Function.update queue.indegree succ left
    ready := if left = 0 then queue.ready.orderedInsert (· ≤ ·) succ else queue.ready }

/-- Pops until the heap is empty; the fuel counts pops. -/
def drain (succs : ι → List ι) : Nat → Queue ι → List ι
  | fuel + 1, ⟨indegree, node :: ready⟩ =>
    node :: drain succs fuel ((succs node).foldl unblock ⟨indegree, ready⟩)
  | _, _ => []

def sort (nodes : List ι) (preds succs : ι → List ι) : List ι :=
  drain succs nodes.length
    { indegree := fun node => (preds node).length
      ready := (nodes.filter fun node => (preds node).isEmpty).insertionSort (· ≤ ·) }

/-- The list goes on from what is done: each node once, after everything it waits for. -/
def Follows (preds : ι → List ι) : List ι → List ι → Prop
  | _, [] => True
  | done, node :: rest =>
    node ∉ done ∧ (∀ pred ∈ preds node, pred ∈ done) ∧ Follows preds (node :: done) rest

/-- A graph given by both directions of its edges. -/
structure Converse (nodes : List ι) (preds succs : ι → List ι) : Prop where
  nodup : nodes.Nodup
  preds_nodup : ∀ node ∈ nodes, (preds node).Nodup
  succs_nodup : ∀ node ∈ nodes, (succs node).Nodup
  known : ∀ node ∈ nodes, preds node ⊆ nodes
  mem_succs : ∀ node ∈ nodes, ∀ succ, succ ∈ succs node ↔ succ ∈ nodes ∧ node ∈ preds succ

omit [LinearOrder ι] in
/-- Read against its edges a graph is one with both directions of its edges still. -/
theorem Converse.swap {nodes : List ι} {preds succs : ι → List ι}
    (hconverse : Converse nodes preds succs) : Converse nodes succs preds where
  nodup := hconverse.nodup
  preds_nodup := hconverse.succs_nodup
  succs_nodup := hconverse.preds_nodup
  known node hnode succ hmem := ((hconverse.mem_succs node hnode succ).mp hmem).1
  mem_succs node hnode pred := by
    constructor
    · intro hmem
      have hpred := hconverse.known node hnode hmem
      exact ⟨hpred, (hconverse.mem_succs pred hpred node).mpr ⟨hnode, hmem⟩⟩
    · rintro ⟨hpred, hmem⟩
      exact ((hconverse.mem_succs pred hpred node).mp hmem).2

/-- What the counts and the heap hold once `done` has been popped. -/
structure Pending (nodes : List ι) (preds : ι → List ι) (done : List ι) (queue : Queue ι) : Prop where
  done_nodes : done ⊆ nodes
  done_nodup : done.Nodup
  done_closed : ∀ node ∈ done, ∀ pred ∈ preds node, pred ∈ done
  ready_nodup : queue.ready.Nodup
  indegree : ∀ node ∈ nodes, queue.indegree node = ((preds node).filter (· ∉ done)).length
  mem_ready : ∀ node, node ∈ queue.ready ↔
    node ∈ nodes ∧ node ∉ done ∧ ∀ pred ∈ preds node, pred ∈ done

section

variable {nodes : List ι} {preds succs : ι → List ι} {done : List ι}

theorem foldl_unblock {blocked : List ι} (hnodup : blocked.Nodup) (queue : Queue ι) :
    (∀ node, (blocked.foldl unblock queue).indegree node =
        if node ∈ blocked then queue.indegree node - 1 else queue.indegree node) ∧
      (blocked.foldl unblock queue).ready.Perm
        (blocked.filter (fun node => queue.indegree node - 1 = 0) ++ queue.ready) := by
  induction blocked generalizing queue with
  | nil => simp
  | cons first blocked ih =>
    rw [List.nodup_cons] at hnodup
    obtain ⟨hindegree, hready⟩ := ih hnodup.2 (unblock queue first)
    have hother : ∀ node, node ≠ first →
        (unblock queue first).indegree node = queue.indegree node := by
      intro node hne
      exact Function.update_of_ne hne _ _
    constructor
    · intro node
      rw [List.foldl_cons, hindegree]
      by_cases hfirst : node = first
      · subst hfirst
        simp [hnodup.1, unblock]
      · simp only [List.mem_cons, hfirst, false_or]
        rw [hother node hfirst]
    · have hfilter : blocked.filter (fun node => (unblock queue first).indegree node - 1 = 0) =
          blocked.filter fun node => queue.indegree node - 1 = 0 := by
        apply List.filter_congr
        intro node hmem
        rw [hother node fun heq => hnodup.1 (heq ▸ hmem)]
      rw [List.foldl_cons]
      refine hready.trans ?_
      rw [hfilter, List.filter_cons]
      by_cases hzero : queue.indegree first - 1 = 0
      · simp only [unblock, hzero, if_true, decide_true]
        refine ((List.perm_orderedInsert _ first queue.ready).append_left _).trans ?_
        exact List.perm_middle
      · simp [unblock, hzero]

/-- Popping a node leaves its successors one predecessor fewer to wait for. -/
theorem filter_not_mem_cons {node other : ι} (hconverse : Converse nodes preds succs)
    (hother : other ∈ nodes) (hdone : node ∉ done) :
    ((preds other).filter (· ∉ node :: done)).length =
      if node ∈ preds other then ((preds other).filter (· ∉ done)).length - 1
      else ((preds other).filter (· ∉ done)).length := by
  have hfilter : (preds other).filter (· ∉ node :: done) =
      ((preds other).filter (· ∉ done)).filter (· ≠ node) := by
    rw [List.filter_filter]
    apply List.filter_congr
    intro pred _
    simp [not_or]
  rw [hfilter]
  by_cases hpred : node ∈ preds other
  · have hmem : node ∈ (preds other).filter (· ∉ done) := by
      simp [hpred, hdone]
    rw [if_pos hpred, ← List.length_erase_of_mem hmem]
    rw [((hconverse.preds_nodup other hother).filter _).erase_eq_filter]
    congr 1
    apply List.filter_congr
    intro pred _
    by_cases hsame : pred = node <;> simp [hsame]
  · rw [if_neg hpred]
    congr 1
    apply List.filter_eq_self.mpr
    intro pred hmem
    have hne : pred ≠ node := fun heq => hpred (heq ▸ (List.mem_filter.mp hmem).1)
    simpa using hne

theorem Pending.pop {node : ι} {indegree : ι → Nat} {ready : List ι}
    (hconverse : Converse nodes preds succs)
    (hpending : Pending nodes preds done ⟨indegree, node :: ready⟩) :
    Pending nodes preds (node :: done) ((succs node).foldl unblock ⟨indegree, ready⟩) := by
  obtain ⟨hnode, hdone, hpreds⟩ := (hpending.mem_ready node).mp (List.mem_cons_self ..)
  obtain ⟨hnotReady, hready⟩ := List.nodup_cons.mp hpending.ready_nodup
  obtain ⟨hcounts, hperm⟩ :=
    foldl_unblock (hconverse.succs_nodup node hnode) (⟨indegree, ready⟩ : Queue ι)
  have hself : node ∉ preds node := fun hmem => hdone (hpreds node hmem)
  have hindegree : ∀ other ∈ nodes, ((succs node).foldl unblock ⟨indegree, ready⟩).indegree other =
      ((preds other).filter (· ∉ node :: done)).length := by
    intro other hother
    rw [hcounts, filter_not_mem_cons hconverse hother hdone, ← hpending.indegree other hother]
    simp only [hconverse.mem_succs node hnode, hother, true_and]
  have hmem : ∀ other, other ∈ ((succs node).foldl unblock ⟨indegree, ready⟩).ready ↔
      (other ∈ nodes ∧ node ∈ preds other ∧ indegree other - 1 = 0) ∨ other ∈ ready := by
    intro other
    rw [hperm.mem_iff, List.mem_append, List.mem_filter, hconverse.mem_succs node hnode]
    simp [and_assoc]
  constructor
  · exact List.cons_subset.mpr ⟨hnode, hpending.done_nodes⟩
  · exact List.nodup_cons.mpr ⟨hdone, hpending.done_nodup⟩
  · intro other hother pred hpred
    rcases List.mem_cons.mp hother with rfl | hother
    · exact List.mem_cons_of_mem _ (hpreds pred hpred)
    · exact List.mem_cons_of_mem _ (hpending.done_closed other hother pred hpred)
  · rw [hperm.nodup_iff, List.nodup_append]
    refine ⟨(hconverse.succs_nodup node hnode).filter _, hready, fun other hsucc _ hold heq => ?_⟩
    -- A node that waits for this one was not ready.
    subst heq
    have hwaits := ((hconverse.mem_succs node hnode other).mp (List.mem_filter.mp hsucc).1).2
    exact hdone (((hpending.mem_ready other).mp (List.mem_cons_of_mem _ hold)).2.2 node hwaits)
  · exact hindegree
  · intro other
    rw [hmem]
    by_cases hwaits : node ∈ preds other
    · have hnotOld : other ∉ ready := fun hold =>
        hdone (((hpending.mem_ready other).mp (List.mem_cons_of_mem _ hold)).2.2 node hwaits)
      simp only [hwaits, hnotOld, true_and, or_false]
      constructor
      · rintro ⟨hother, hzero⟩
        have hcount : ((preds other).filter (· ∉ node :: done)).length = 0 := by
          rw [filter_not_mem_cons hconverse hother hdone, if_pos hwaits,
            ← hpending.indegree other hother]
          exact hzero
        rw [List.length_eq_zero_iff, List.filter_eq_nil_iff] at hcount
        refine ⟨hother, ?_, fun pred hpred => by_contra fun hnot => hcount pred hpred (by simpa using hnot)⟩
        rw [List.mem_cons, not_or]
        exact ⟨fun heq => hself (heq ▸ hwaits), fun hold =>
          hdone (hpending.done_closed other hold node hwaits)⟩
      · rintro ⟨hother, -, hall⟩
        refine ⟨hother, ?_⟩
        have hcount : ((preds other).filter (· ∉ node :: done)).length = 0 := by
          rw [List.length_eq_zero_iff, List.filter_eq_nil_iff]
          intro pred hpred hnot
          exact of_decide_eq_true hnot (hall pred hpred)
        rw [filter_not_mem_cons hconverse hother hdone, if_pos hwaits,
          ← hpending.indegree other hother] at hcount
        exact hcount
    · simp only [hwaits, false_and, and_false, false_or]
      have hold : other ∈ ready ↔ other ≠ node ∧ other ∈ node :: ready := by
        rw [List.mem_cons]
        constructor
        · exact fun hmem => ⟨fun heq => hnotReady (heq ▸ hmem), .inr hmem⟩
        · exact fun h => h.2.resolve_left h.1
      have hall : (∀ pred ∈ preds other, pred ∈ node :: done) ↔ ∀ pred ∈ preds other, pred ∈ done := by
        refine forall₂_congr fun pred hpred => ?_
        have hne : pred ≠ node := fun heq => hwaits (heq ▸ hpred)
        simp [hne]
      rw [hold, hpending.mem_ready other, hall, List.mem_cons, not_or]
      tauto

theorem Pending.start (hconverse : Converse nodes preds succs) :
    Pending nodes preds [] { indegree := fun node => (preds node).length
                             ready := (nodes.filter fun node =>
                              (preds node).isEmpty).insertionSort (· ≤ ·) } := by
  have hperm := List.perm_insertionSort (· ≤ ·) (nodes.filter fun node => (preds node).isEmpty)
  constructor
  · exact List.nil_subset _
  · exact List.nodup_nil
  · exact fun _ hmem => (List.not_mem_nil hmem).elim
  · exact hperm.nodup_iff.mpr (hconverse.nodup.filter _)
  · intro node _
    simp
  · intro node
    rw [hperm.mem_iff, List.mem_filter, List.isEmpty_iff, List.eq_nil_iff_forall_not_mem]
    simp

/-- What a drain pops follows what was popped before. -/
theorem Pending.drain_follows (hconverse : Converse nodes preds succs) (fuel : Nat)
    {queue : Queue ι} (hpending : Pending nodes preds done queue) :
    Follows preds done (drain succs fuel queue) := by
  induction fuel generalizing done queue with
  | zero => exact trivial
  | succ fuel ih =>
    match queue, hpending with
    | ⟨_, []⟩, _ => exact trivial
    | ⟨_, node :: _⟩, hpending =>
      obtain ⟨-, hdone, hpreds⟩ := (hpending.mem_ready node).mp (List.mem_cons_self ..)
      exact ⟨hdone, hpreds, ih (hpending.pop hconverse)⟩

/-- An empty heap has nothing left of a graph without cycles. -/
theorem Pending.done_of_empty (hconverse : Converse nodes preds succs)
    (hacyclic : ∀ node, ¬ Closure.Reaches preds node node) {indegree : ι → Nat}
    (hpending : Pending nodes preds done ⟨indegree, []⟩) : nodes ⊆ done := by
  let waits (pred node : ι) : Prop := Closure.Reaches preds node pred
  have hstrict : IsStrictOrder ι waits :=
    { irrefl := hacyclic
      trans := fun _ _ _ hfirst hsecond => hsecond.trans hfirst }
  have hwell : {node | node ∈ nodes}.WellFoundedOn waits := nodes.finite_toSet.wellFoundedOn
  intro node hnode
  refine hwell.induction hnode fun node hnode ih => ?_
  by_contra hnot
  -- Everything it waits for is done, so it would be ready.
  have hready := (hpending.mem_ready node).mpr ⟨hnode, hnot, fun pred hpred =>
    ih pred (hconverse.known node hnode hpred) (.single hpred)⟩
  exact List.not_mem_nil hready

theorem Pending.drain_complete (hconverse : Converse nodes preds succs)
    (hacyclic : ∀ node, ¬ Closure.Reaches preds node node) (fuel : Nat) {queue : Queue ι}
    (hpending : Pending nodes preds done queue) (hfuel : nodes.length ≤ done.length + fuel) :
    ∀ node ∈ nodes, node ∈ done ∨ node ∈ drain succs fuel queue := by
  induction fuel generalizing done queue with
  | zero =>
    have hall : nodes ⊆ done := by
      have hperm := (List.subperm_of_subset hpending.done_nodup hpending.done_nodes).perm_of_length_le
        (by omega)
      exact hperm.symm.subset
    exact fun node hnode => .inl (hall hnode)
  | succ fuel ih =>
    match queue, hpending with
    | ⟨_, []⟩, hpending =>
      exact fun node hnode => .inl (hpending.done_of_empty hconverse hacyclic hnode)
    | ⟨_, first :: _⟩, hpending =>
      intro node hnode
      rcases ih (hpending.pop hconverse) (by simp only [List.length_cons]; omega) node hnode with
        hdone | hlater
      · rcases List.mem_cons.mp hdone with rfl | hdone
        · exact .inr (List.mem_cons_self ..)
        · exact .inl hdone
      · exact .inr (List.mem_cons_of_mem _ hlater)

/-- **The sort lists every node after what it waits for.** -/
theorem sort_follows (hconverse : Converse nodes preds succs) :
    Follows preds [] (sort nodes preds succs) :=
  (Pending.start hconverse).drain_follows hconverse _

/-- What a drain pops are nodes. -/
theorem Pending.drain_subset (hconverse : Converse nodes preds succs) (fuel : Nat)
    {queue : Queue ι} (hpending : Pending nodes preds done queue) :
    drain succs fuel queue ⊆ nodes := by
  induction fuel generalizing done queue with
  | zero => exact List.nil_subset _
  | succ fuel ih =>
    match queue, hpending with
    | ⟨_, []⟩, _ => exact List.nil_subset _
    | ⟨_, node :: _⟩, hpending =>
      obtain ⟨hnode, -, -⟩ := (hpending.mem_ready node).mp (List.mem_cons_self ..)
      exact List.cons_subset.mpr ⟨hnode, ih (hpending.pop hconverse)⟩

theorem sort_subset (hconverse : Converse nodes preds succs) : sort nodes preds succs ⊆ nodes :=
  (Pending.start hconverse).drain_subset hconverse _

theorem mem_sort (hconverse : Converse nodes preds succs)
    (hacyclic : ∀ node, ¬ Closure.Reaches preds node node) {node : ι} (hnode : node ∈ nodes) :
    node ∈ sort nodes preds succs := by
  have hfound := (Pending.start hconverse).drain_complete hconverse hacyclic nodes.length
    (by simp) node hnode
  exact hfound.resolve_left List.not_mem_nil

/-! ## The least order -/

theorem foldl_unblock_sorted (blocked : List ι) {queue : Queue ι}
    (hsorted : queue.ready.Pairwise (· ≤ ·)) :
    (blocked.foldl unblock queue).ready.Pairwise (· ≤ ·) := by
  induction blocked generalizing queue with
  | nil => exact hsorted
  | cons first blocked ih =>
    refine ih ?_
    unfold unblock
    dsimp only
    split
    · exact hsorted.orderedInsert first queue.ready
    · exact hsorted

theorem nil_least (order : List ι) : [] = order ∨ List.Lex (· < ·) [] order := by
  cases order with
  | nil => exact .inl rfl
  | cons first rest => exact .inr .nil

/-- Of all the ways to go on from what was popped, a drain is the least. -/
theorem Pending.drain_least (hconverse : Converse nodes preds succs) (fuel : Nat) {queue : Queue ι}
    (hpending : Pending nodes preds done queue) (hsorted : queue.ready.Pairwise (· ≤ ·))
    {order : List ι} (hfollows : Follows preds done order) (hnodes : order ⊆ nodes)
    (hall : ∀ node ∈ nodes, node ∈ done ∨ node ∈ order) :
    drain succs fuel queue = order ∨ List.Lex (· < ·) (drain succs fuel queue) order := by
  induction fuel generalizing done queue order with
  | zero => exact nil_least order
  | succ fuel ih =>
    match queue, hpending, hsorted with
    | ⟨_, []⟩, _, _ => exact nil_least order
    | ⟨indegree, node :: ready⟩, hpending, hsorted =>
      obtain ⟨hnode, hdone, -⟩ := (hpending.mem_ready node).mp (List.mem_cons_self ..)
      match order, hfollows, hnodes, hall with
      | [], _, _, hall => exact absurd ((hall node hnode).resolve_left hdone) List.not_mem_nil
      | first :: rest, ⟨hfresh, hpreds, hrest⟩, hnodes, hall =>
        -- Whatever another order starts with was ready too, so the heap's head is no greater.
        have hready : first ∈ node :: ready :=
          (hpending.mem_ready first).mpr ⟨hnodes (List.mem_cons_self ..), hfresh, hpreds⟩
        obtain ⟨hleast, hsorted⟩ := List.pairwise_cons.mp hsorted
        have hle : node ≤ first := by
          rcases List.mem_cons.mp hready with rfl | hlater
          · exact le_refl _
          · exact hleast first hlater
        rcases lt_or_eq_of_le hle with hlt | rfl
        · exact .inr (.rel hlt)
        have hrestNodes : rest ⊆ nodes := fun other hmem => hnodes (List.mem_cons_of_mem _ hmem)
        have hrestAll : ∀ other ∈ nodes, other ∈ node :: done ∨ other ∈ rest := by
          intro other hother
          rcases hall other hother with hold | hnew
          · exact .inl (List.mem_cons_of_mem _ hold)
          · rcases List.mem_cons.mp hnew with rfl | hlater
            · exact .inl (List.mem_cons_self ..)
            · exact .inr hlater
        rcases ih (hpending.pop hconverse) (foldl_unblock_sorted _ hsorted) hrest hrestNodes
          hrestAll with hsame | hless
        · exact .inl (congrArg (node :: ·) hsame)
        · exact .inr (.cons hless)

/-- **The sort is the least of the orders.** -/
theorem sort_least (hconverse : Converse nodes preds succs) {order : List ι}
    (hfollows : Follows preds [] order) (hperm : order.Perm nodes) :
    sort nodes preds succs = order ∨ List.Lex (· < ·) (sort nodes preds succs) order := by
  refine (Pending.start hconverse).drain_least hconverse _ (List.pairwise_insertionSort _ _)
    hfollows hperm.subset fun node hnode => ?_
  exact .inr (hperm.mem_iff.mpr hnode)

omit [LinearOrder ι] in
theorem Follows.nodup {order : List ι} (hfollows : Follows preds done order) :
    order.Nodup ∧ ∀ node ∈ order, node ∉ done := by
  induction order generalizing done with
  | nil => exact ⟨List.nodup_nil, fun _ hmem => (List.not_mem_nil hmem).elim⟩
  | cons node rest ih =>
    obtain ⟨hdone, -, hrest⟩ := hfollows
    obtain ⟨hnodup, hfresh⟩ := ih hrest
    refine ⟨List.nodup_cons.mpr ⟨fun hmem => hfresh node hmem (List.mem_cons_self ..), hnodup⟩, ?_⟩
    intro other hmem
    rcases List.mem_cons.mp hmem with rfl | hlater
    · exact hdone
    · exact fun hold => hfresh other hlater (List.mem_cons_of_mem _ hold)

/-- The sort lists the nodes of a graph without cycles, each once. -/
theorem sort_perm (hconverse : Converse nodes preds succs)
    (hacyclic : ∀ node, ¬ Closure.Reaches preds node node) :
    (sort nodes preds succs).Perm nodes := by
  refine (List.perm_ext_iff_of_nodup (sort_follows hconverse).nodup.1 hconverse.nodup).mpr ?_
  exact fun node => ⟨fun hmem => sort_subset hconverse hmem, mem_sort hconverse hacyclic⟩

omit [LinearOrder ι] in
/-- What a list goes on from is what stands before each of its nodes. -/
theorem follows_iff {order : List ι} : Follows preds done order ↔
    (order.Nodup ∧ ∀ node ∈ order, node ∉ done) ∧
      ∀ before node after, order = before ++ node :: after →
        ∀ pred ∈ preds node, pred ∈ done ∨ pred ∈ before := by
  induction order generalizing done with
  | nil => simp [Follows]
  | cons first rest ih =>
    constructor
    · intro hfollows
      refine ⟨hfollows.nodup, fun before node after hsplit pred hpred => ?_⟩
      obtain ⟨-, hpreds, hrest⟩ := hfollows
      cases before with
      | nil =>
        obtain ⟨rfl, -⟩ := List.cons.inj hsplit
        exact .inl (hpreds pred hpred)
      | cons head before =>
        rw [List.cons_append] at hsplit
        obtain ⟨rfl, hlater⟩ := List.cons.inj hsplit
        rcases (ih.mp hrest).2 before node after hlater pred hpred with hdone | hbefore
        · rcases List.mem_cons.mp hdone with rfl | hdone
          · exact .inr (List.mem_cons_self ..)
          · exact .inl hdone
        · exact .inr (List.mem_cons_of_mem _ hbefore)
    · rintro ⟨⟨hnodup, hfresh⟩, hwaits⟩
      obtain ⟨hfirst, hnodup⟩ := List.nodup_cons.mp hnodup
      refine ⟨hfresh first (List.mem_cons_self ..), fun pred hpred => ?_, ih.mpr ⟨⟨hnodup, ?_⟩, ?_⟩⟩
      · exact (hwaits [] first rest rfl pred hpred).resolve_right List.not_mem_nil
      · intro node hmem hold
        rcases List.mem_cons.mp hold with rfl | hold
        · exact hfirst hmem
        · exact hfresh node (List.mem_cons_of_mem _ hmem) hold
      · intro before node after hsplit pred hpred
        rcases hwaits (first :: before) node after (by rw [hsplit, List.cons_append]) pred hpred with
          hdone | hbefore
        · exact .inl (List.mem_cons_of_mem _ hdone)
        · rcases List.mem_cons.mp hbefore with rfl | hbefore
          · exact .inl (List.mem_cons_self ..)
          · exact .inr hbefore

end

end Kahn
