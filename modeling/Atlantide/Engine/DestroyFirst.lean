import Atlantide.Engine.Coverage
import Atlantide.Engine.PlannedHandles

/-! # What must go before a destroy-first delete

A conditional REPLACE waits for the values it refers to, which puts it after its upstream. Where the
upstream is destroyed first, that delete would run while the dependent still uses it, so the dependent
is settled now, and where it is itself destroyed first, so is whatever hangs on it. The passes over the
changes compute the least set of such nodes. -/

namespace Atlantide

/-- The change hangs on a node in `first` through an immutable field it changes, and would still wait
for that node's outputs. -/
def Change.HangsOn (mutability : TypeMutability) (change : Change) (first : String → Prop) : Prop :=
  change.action = .replace ∧ change.conditional = true ∧
    ∃ desired, change.desired = some desired ∧ ∃ name ∈ change.changedFields,
      mutability desired.type name = some .immutable ∧
        ∃ target ∈ (desired.property name).collectRefTargets, target ≠ desired.id ∧ first target

/-- The nodes whose old resource goes before the new one comes: those replaced so with a row, and
those that hang on such a node and do not create first. -/
inductive ChangeSet.GoesFirst (changeset : ChangeSet) (mutability : TypeMutability) : String → Prop
  | replaced (change : Change) (hmem : change ∈ changeset.changes)
      (hfirst : destroyedFirst change = true) : GoesFirst changeset mutability change.nodeId
  | hangs (change : Change) (hmem : change ∈ changeset.changes)
      (hdestroys : change.createBeforeDestroy = false) (upstream : String)
      (hupstream : GoesFirst changeset mutability upstream)
      (hhangs : change.HangsOn mutability (· = upstream)) :
      GoesFirst changeset mutability change.nodeId

/-- The change is forced to be settled now. -/
def ChangeSet.Forces (changeset : ChangeSet) (mutability : TypeMutability) (change : Change) : Prop :=
  change.HangsOn mutability (changeset.GoesFirst mutability)

/-- No conditional REPLACE hangs on a REPLACE that has a row and is destroyed first. -/
def ChangeSet.Settled (changeset : ChangeSet) (mutability : TypeMutability) : Prop :=
  ∀ change ∈ changeset.changes, ¬ change.HangsOn mutability fun nodeId =>
    ∃ upstream ∈ changeset.changes, upstream.nodeId = nodeId ∧ destroyedFirst upstream = true

section

variable {changeset : ChangeSet} {mutability : TypeMutability} {change : Change}

theorem behind_iff {first : List String} :
    behind change first mutability = true ↔ change.HangsOn mutability (· ∈ first) := by
  unfold behind Change.HangsOn
  cases hdesired : change.desired with
  | none => simp
  | some desired =>
    simp only [Bool.and_eq_true, decide_eq_true_eq, List.any_eq_true, touches, ne_eq,
      Option.some.injEq, exists_eq_left', and_assoc]

theorem Change.HangsOn.mono {first more : String → Prop}
    (hhangs : change.HangsOn mutability first) (hmore : ∀ nodeId, first nodeId → more nodeId) :
    change.HangsOn mutability more := by
  obtain ⟨haction, hconditional, desired, hdesired, name, hname, himmutable, target, htarget, hne,
    hfirst⟩ := hhangs
  exact ⟨haction, hconditional, desired, hdesired, name, hname, himmutable, target, htarget, hne,
    hmore target hfirst⟩

/-- Hanging on some node of a set is hanging on one of them. -/
theorem Change.HangsOn.exists_one {first : String → Prop}
    (hhangs : change.HangsOn mutability first) :
    ∃ upstream, first upstream ∧ change.HangsOn mutability (· = upstream) := by
  obtain ⟨haction, hconditional, desired, hdesired, name, hname, himmutable, target, htarget, hne,
    hfirst⟩ := hhangs
  exact ⟨target, hfirst, haction, hconditional, desired, hdesired, name, hname, himmutable, target,
    htarget, hne, rfl⟩

/-! ## What the passes find is forced -/

/-- What is destroyed first so far goes first, and what is pinned is forced. -/
structure PassSound (changeset : ChangeSet) (mutability : TypeMutability)
    (state : List String × List String) : Prop where
  first : ∀ nodeId ∈ state.1, changeset.GoesFirst mutability nodeId
  pinned : ∀ nodeId ∈ state.2, ∃ change ∈ changeset.changes, change.nodeId = nodeId ∧
    changeset.Forces mutability change

theorem PassSound.pin {state : List String × List String}
    (hsound : PassSound changeset mutability state) (hmem : change ∈ changeset.changes) :
    PassSound changeset mutability (pin mutability state change) := by
  unfold Atlantide.pin
  split
  · exact hsound
  · rename_i hturn
    have hbehind : behind change state.1 mutability = true := by
      by_contra hnot
      exact hturn (by simp [hnot])
    have hforced : changeset.Forces mutability change :=
      (behind_iff.mp hbehind).mono hsound.first
    refine ⟨fun nodeId hfirst => ?_, fun nodeId hpinned => ?_⟩
    · by_cases hcbd : change.createBeforeDestroy = true
      · rw [if_pos hcbd] at hfirst
        exact hsound.first nodeId hfirst
      · rw [if_neg hcbd] at hfirst
        rcases List.mem_cons.mp hfirst with rfl | hold
        · obtain ⟨upstream, hgoes, hhangs⟩ := hforced.exists_one
          exact .hangs change hmem (Bool.not_eq_true _ ▸ hcbd) upstream hgoes hhangs
        · exact hsound.first nodeId hold
    · rcases List.mem_cons.mp hpinned with rfl | hold
      · exact ⟨change, hmem, rfl, hforced⟩
      · exact hsound.pinned nodeId hold

theorem PassSound.pass {changes : List Change} (hchanges : changes ⊆ changeset.changes) :
    ∀ {state : List String × List String}, PassSound changeset mutability state →
      PassSound changeset mutability (changes.foldl (Atlantide.pin mutability) state) := by
  induction changes with
  | nil => exact fun hsound => hsound
  | cons change changes ih =>
    intro state hsound
    exact ih (fun _ hmem => hchanges (List.mem_cons_of_mem _ hmem))
      (hsound.pin (hchanges (List.mem_cons_self ..)))

theorem PassSound.pinAll (fuel : Nat) : ∀ {state : List String × List String},
    PassSound changeset mutability state →
      PassSound changeset mutability (pinAll mutability changeset.changes fuel state) := by
  induction fuel with
  | zero => exact fun hsound => hsound
  | succ fuel ih =>
    intro state hsound
    have hpass := hsound.pass (List.Subset.refl changeset.changes)
    unfold Atlantide.pinAll
    dsimp only
    split
    · exact hpass
    · exact ih hpass

/-! ## The passes end where one more finds nothing -/

/-- Turns only add, and the pinned ids are distinct ids of changes. -/
structure PassGrows (changes : List Change) (before after : List String × List String) : Prop where
  first : before.1 ⊆ after.1
  pinned : before.2 <:+ after.2
  ids : after.2 ⊆ before.2 ++ changes.map (·.nodeId)
  nodup : before.2.Nodup → after.2.Nodup
  same : after.2.length = before.2.length → after = before

theorem passGrows_pin (state : List String × List String) (change : Change) :
    PassGrows [change] state (pin mutability state change) := by
  unfold pin
  split
  · exact ⟨List.Subset.refl _, List.suffix_refl _, List.subset_append_left .., id, fun _ => rfl⟩
  · rename_i hturn
    have hnew : change.nodeId ∉ state.2 := by
      intro hmem
      exact hturn (by simp [hmem])
    refine ⟨?_, List.suffix_cons .., ?_, fun hnodup => List.nodup_cons.mpr ⟨hnew, hnodup⟩, ?_⟩
    · split
      · exact List.Subset.refl _
      · exact List.subset_cons_self ..
    · intro nodeId hmem
      rcases List.mem_cons.mp hmem with rfl | hold
      · simp
      · exact List.mem_append_left _ hold
    · intro hlength
      rw [List.length_cons] at hlength
      omega

theorem PassGrows.trans {first second : List Change} {start middle last : List String × List String}
    (hfirst : PassGrows first start middle) (hsecond : PassGrows second middle last) :
    PassGrows (first ++ second) start last := by
  refine ⟨List.Subset.trans hfirst.first hsecond.first, hfirst.pinned.trans hsecond.pinned, ?_,
    fun hnodup => hsecond.nodup (hfirst.nodup hnodup), fun hlength => ?_⟩
  · intro nodeId hmem
    rw [List.map_append, ← List.append_assoc]
    rcases List.mem_append.mp (hsecond.ids hmem) with hmiddle | hlast
    · exact List.mem_append_left _ (hfirst.ids hmiddle)
    · exact List.mem_append_right _ hlast
  · have hle := hfirst.pinned.length_le
    have hle' := hsecond.pinned.length_le
    rw [hsecond.same (by omega), hfirst.same (by omega)]

theorem passGrows_pass (changes : List Change) : ∀ state : List String × List String,
    PassGrows changes state (changes.foldl (pin mutability) state) := by
  induction changes with
  | nil => exact fun state =>
      ⟨List.Subset.refl _, List.suffix_refl _, List.subset_append_left .., id, fun _ => rfl⟩
  | cons change changes ih =>
    exact fun state => (passGrows_pin state change).trans (ih _)

/-- **The passes end.** A pass that pins nothing is reached before the passes run out: every other one
pins a change that was not pinned. -/
theorem pinAll_stable {changes : List Change} : ∀ (fuel : Nat) (state : List String × List String),
    state.2.Nodup → state.2 ⊆ changes.map (·.nodeId) → changes.length < fuel + state.2.length →
      changes.foldl (pin mutability) (pinAll mutability changes fuel state) =
        pinAll mutability changes fuel state := by
  intro fuel
  induction fuel with
  | zero =>
    intro state hnodup hids hfuel
    have hle : state.2.length ≤ (changes.map (·.nodeId)).length := (hnodup.subperm hids).length_le
    rw [List.length_map] at hle
    omega
  | succ fuel ih =>
    intro state hnodup hids hfuel
    have hgrows : PassGrows changes state (changes.foldl (pin mutability) state) :=
      passGrows_pass changes state
    unfold pinAll
    dsimp only
    split
    · rename_i hlength
      rw [hgrows.same hlength, hgrows.same hlength]
    · rename_i hlength
      have hle := hgrows.pinned.length_le
      refine ih _ (hgrows.nodup hnodup) (fun nodeId hmem => ?_) (by omega)
      rcases List.mem_append.mp (hgrows.ids hmem) with hold | hnew
      · exact hids hold
      · exact hnew

/-- The point the passes end at. -/
def lastPass (changeset : ChangeSet) (mutability : TypeMutability) : List String × List String :=
  pinAll mutability changeset.changes (changeset.changes.length + 1)
    ((changeset.changes.filter destroyedFirst).map (·.nodeId), [])

theorem lastPass_stable (changeset : ChangeSet) (mutability : TypeMutability) :
    changeset.changes.foldl (pin mutability) (lastPass changeset mutability) =
      lastPass changeset mutability := by
  refine pinAll_stable _ _ List.nodup_nil (List.nil_subset _) ?_
  rw [List.length_nil]
  omega

theorem subset_pinAll {changes : List Change} (fuel : Nat) :
    ∀ state : List String × List String, state.1 ⊆ (pinAll mutability changes fuel state).1 := by
  induction fuel with
  | zero => exact fun _ => List.Subset.refl _
  | succ fuel ih =>
    intro state
    have hgrows : PassGrows changes state (changes.foldl (pin mutability) state) :=
      passGrows_pass changes state
    unfold pinAll
    dsimp only
    split
    · exact hgrows.first
    · exact List.Subset.trans hgrows.first (ih _)

theorem mem_lastPass_of_destroyedFirst (hmem : change ∈ changeset.changes)
    (hfirst : destroyedFirst change = true) :
    change.nodeId ∈ (lastPass changeset mutability).1 :=
  subset_pinAll _ _ (List.mem_map.mpr ⟨change, List.mem_filter.mpr ⟨hmem, hfirst⟩, rfl⟩)

/-- A turn that changes nothing at a point a pass does not move. -/
theorem pin_stable {changes : List Change} {state : List String × List String}
    (hstable : changes.foldl (pin mutability) state = state) (hmem : change ∈ changes) :
    pin mutability state change = state := by
  obtain ⟨front, rest, rfl⟩ := List.append_of_mem hmem
  rw [List.foldl_append, List.foldl_cons] at hstable
  have hfront : PassGrows front state (front.foldl (pin mutability) state) :=
    passGrows_pass front state
  have hturn := @passGrows_pin mutability (front.foldl (pin mutability) state) change
  have hrest := @passGrows_pass mutability rest
    (pin mutability (front.foldl (pin mutability) state) change)
  rw [hstable] at hrest
  have hle := hfront.pinned.length_le
  have hle' := hturn.pinned.length_le
  have hle'' := hrest.pinned.length_le
  have hsame : front.foldl (pin mutability) state = state := hfront.same (by omega)
  have hlast := hturn.same (by omega)
  rw [hsame] at hlast
  exact hlast

/-- What still hangs on something destroyed first is pinned. -/
theorem mem_pinned_of_hangsOn (hmem : change ∈ changeset.changes)
    (hhangs : change.HangsOn mutability (· ∈ (lastPass changeset mutability).1)) :
    change.nodeId ∈ pinned changeset mutability := by
  have hturn := pin_stable (lastPass_stable changeset mutability) hmem
  by_contra hnot
  have hnew : change.nodeId ∉ (lastPass changeset mutability).2 := hnot
  unfold pin at hturn
  rw [if_neg (by simp [hnew, behind_iff.mpr hhangs])] at hturn
  have hlength := congrArg (fun state => state.2.length) hturn
  simp only [List.length_cons] at hlength
  omega

/-! ## The changes after it -/

theorem pinned_sound {nodeId : String} (hmem : nodeId ∈ pinned changeset mutability) :
    ∃ change ∈ changeset.changes, change.nodeId = nodeId ∧ changeset.Forces mutability change := by
  have hstart : PassSound changeset mutability
      ((changeset.changes.filter destroyedFirst).map (·.nodeId), []) := by
    refine ⟨fun nodeId hfirst => ?_, fun _ hnone => (List.not_mem_nil hnone).elim⟩
    obtain ⟨change, hchange, rfl⟩ := List.mem_map.mp hfirst
    obtain ⟨hchange, hdestroyed⟩ := List.mem_filter.mp hchange
    exact .replaced change hchange hdestroyed
  exact (hstart.pinAll _).pinned nodeId hmem

/-- A change after the passes: as it was, or a forced one that no longer waits. -/
theorem behindDestroyFirst_change
    (hmem : change ∈ (behindDestroyFirst changeset mutability).changes) :
    ∃ before ∈ changeset.changes, (before.nodeId ∉ pinned changeset mutability ∧ change = before) ∨
      (before.nodeId ∈ pinned changeset mutability ∧
        change = { before with conditional := false }) := by
  obtain ⟨before, hbefore, rfl⟩ := List.mem_map.mp hmem
  refine ⟨before, hbefore, ?_⟩
  by_cases hpinned : before.nodeId ∈ pinned changeset mutability
  · exact .inr ⟨hpinned, if_pos hpinned⟩
  · exact .inl ⟨hpinned, if_neg hpinned⟩

theorem behindDestroyFirst_settled (changeset : ChangeSet) (mutability : TypeMutability) :
    (behindDestroyFirst changeset mutability).Settled mutability := by
  intro change hmem hhangs
  obtain ⟨before, hbefore, ⟨hkept, rfl⟩ | ⟨-, rfl⟩⟩ := behindDestroyFirst_change hmem
  · refine hkept (mem_pinned_of_hangsOn hbefore (hhangs.mono fun nodeId hupstream => ?_))
    obtain ⟨upstream, hup, rfl, hfirst⟩ := hupstream
    obtain ⟨old, hold, ⟨-, rfl⟩ | ⟨-, rfl⟩⟩ := behindDestroyFirst_change hup
    · exact mem_lastPass_of_destroyedFirst hold hfirst
    · exact @mem_lastPass_of_destroyedFirst _ _ old hold hfirst
  · exact Bool.false_ne_true hhangs.2.1

/-- A changeset that is settled stays as it is. -/
theorem behindDestroyFirst_eq (hsettled : changeset.Settled mutability) :
    behindDestroyFirst changeset mutability = changeset := by
  have hpass : ∀ changes ⊆ changeset.changes,
      changes.foldl (pin mutability)
          ((changeset.changes.filter destroyedFirst).map (·.nodeId), []) =
        ((changeset.changes.filter destroyedFirst).map (·.nodeId), []) := by
    intro changes hchanges
    induction changes with
    | nil => rfl
    | cons change changes ih =>
      have hidle : behind change ((changeset.changes.filter destroyedFirst).map (·.nodeId))
          mutability = false := by
        by_contra hbehind
        rw [Bool.not_eq_false] at hbehind
        refine hsettled change (hchanges (List.mem_cons_self ..))
          ((behind_iff.mp hbehind).mono fun nodeId hfirst => ?_)
        obtain ⟨upstream, hup, rfl⟩ := List.mem_map.mp hfirst
        exact ⟨upstream, (List.mem_filter.mp hup).1, rfl, (List.mem_filter.mp hup).2⟩
      rw [List.foldl_cons, pin, if_pos (by simp [hidle])]
      exact ih fun _ hmem => hchanges (List.mem_cons_of_mem _ hmem)
  have hnone : pinned changeset mutability = [] := by
    rw [pinned, pinAll]
    dsimp only
    rw [hpass _ (List.Subset.refl _), if_pos rfl]
  unfold behindDestroyFirst ChangeSet.map
  simp [hnone]

end

/-- How a change may differ after the passes: it no longer waits, where a change of its node is forced
not to. -/
def ChangeSet.SettledInto (changeset : ChangeSet) (mutability : TypeMutability)
    (before after : Change) : Prop :=
  after = before ∨ before.conditional = true ∧ after = { before with conditional := false } ∧
    ∃ forced ∈ changeset.changes, forced.nodeId = before.nodeId ∧
      changeset.Forces mutability forced

theorem behindDestroyFirst_settledInto (changeset : ChangeSet) (mutability : TypeMutability) :
    List.Forall₂ (changeset.SettledInto mutability) changeset.changes
      (behindDestroyFirst changeset mutability).changes := by
  rw [behindDestroyFirst, ChangeSet.map, List.forall₂_map_right_iff, List.forall₂_same]
  intro before _
  by_cases hpinned : before.nodeId ∈ pinned changeset mutability
  · rw [if_pos hpinned]
    by_cases hwaits : before.conditional = true
    · exact .inr ⟨hwaits, rfl, pinned_sound hpinned⟩
    · refine .inl ?_
      rw [Bool.not_eq_true] at hwaits
      rw [← hwaits]
  · rw [if_neg hpinned]
    exact .inl rfl

/-- **The least set.** The passes end, change nothing but clear the flag of changes that a chain of
destroy-first replaces forces, leave none that is still to be cleared, and find nothing the second
time. A plan leaves none either, whatever the audit and the downgrades changed before. -/
theorem behindDestroyFirst_least :
    (∀ (changeset : ChangeSet) (mutability : TypeMutability),
      changeset.changes.foldl (pin mutability) (lastPass changeset mutability) =
          lastPass changeset mutability ∧
        behindDestroyFirst (behindDestroyFirst changeset mutability) mutability =
          behindDestroyFirst changeset mutability ∧
        List.Forall₂ (changeset.SettledInto mutability) changeset.changes
          (behindDestroyFirst changeset mutability).changes ∧
        (behindDestroyFirst changeset mutability).Settled mutability) ∧
      ∀ (planner : Planner) (compiled : Compiled) (prior : StateGraph)
        (stackOutputs : Dict String Value) (selected : Option (List String)) (replace : List String)
        (plan : Plan),
        planner.build compiled prior stackOutputs selected replace = .ok plan →
          plan.changeset.Settled planner.mutability := by
  refine ⟨fun changeset mutability => ⟨lastPass_stable .., ?_, ?_, ?_⟩, ?_⟩
  · exact behindDestroyFirst_eq (behindDestroyFirst_settled changeset mutability)
  · exact behindDestroyFirst_settledInto changeset mutability
  · exact behindDestroyFirst_settled changeset mutability
  · intro planner compiled prior stackOutputs selected replace plan hplan
    obtain ⟨verdicts, audit, resolved, downgraded, -, -, -, hchanges⟩ :=
      Planner.build_stages hplan
    rw [hchanges]
    exact behindDestroyFirst_settled resolved planner.mutability

theorem behindDestroyFirst_least_small :
    ∃ plan, PlannedRun.Nested.built = .ok plan ∧
      plan.changeset.Settled PlannedRun.Nested.planner.mutability := by
  obtain ⟨plan, hbuilt, -⟩ := PlannedRun.Nested.built_creates
  refine ⟨plan, hbuilt, ?_⟩
  exact behindDestroyFirst_least.2 PlannedRun.Nested.planner PlannedRun.Nested.compiled ∅ ∅ none []
    plan hbuilt

end Atlantide
