import Atlantide.State.S3.NodeSafety
import Atlantide.State.S3.Footprint

/-! # Output commits keep to the protocol

A stack's commit is asked for on top of the sequence number its head was last known at, which the
view never overtakes from below: that is what makes every output commit rise. -/

namespace Atlantide

open Interleaving History

variable {tid : Tid} {world : World}

/-! ## What changes -/

theorem mergeOutputs_within {current outputs : Dict String Value} {stack : String}
    {remove : List String} (hcurrent : ∀ key value, current[key]? = some value → stackOf key = stack)
    {key : String} {value : Value}
    (h : (mergeOutputs current (stackOutputs outputs stack) remove)[key]? = some value) :
    stackOf key = stack := by
  rw [mergeOutputs, Std.ExtTreeMap.getElem?_union, getElem?_stackOutputs] at h
  by_contra hne
  rw [if_neg hne, Option.none_or, Std.ExtTreeMap.getElem?_filter'] at h
  obtain ⟨hfound, -⟩ := Option.filter_eq_some_iff.mp h
  exact hne (hcurrent key value hfound)

/-- A pending change of the view's: it rises, and stays within its stack. -/
structure StackChange.Ok (change : StackChange) : Prop where
  rises : change.expectSeq < change.seq
  within : ∀ key value, change.merged[key]? = some value → stackOf key = change.stack

theorem stackChanges_ok {view : View} (hbehind : view.BehindOk) {outputs : Dict String Value}
    {dropped : List String} {change : StackChange} (hmem : change ∈ stackChanges view outputs dropped) :
    change.Ok := by
  obtain ⟨stack, -, hchange⟩ := List.mem_filterMap.mp hmem
  dsimp only at hchange
  split at hchange
  next => cases hchange
  next =>
    cases hchange
    refine ⟨?_, fun key value h => mergeOutputs_within (fun key' value' h' => ?_) h⟩
    · show view.outBehind.getD stack (view.outSeq.getD stack 0) < view.outSeq.getD stack 0 + 1
      rw [Std.ExtTreeMap.getD_eq_getD_getElem?]
      cases hseq : view.outBehind[stack]? with
      | none => exact Nat.lt_succ_self _
      | some seq => exact Nat.lt_succ_of_le (hbehind stack seq hseq)
    · rw [getElem?_stackOutputs] at h'
      by_contra hne
      rw [if_neg hne] at h'
      cases h'

theorem stackChanges_sublist (view : View) (outputs : Dict String Value) (dropped : List String)
    (names : List String) :
    ((names.filterMap fun stack =>
      let current := stackOutputs view.outputs stack
      let merged := mergeOutputs current (stackOutputs outputs stack)
        (dropped.filter fun key => stackOf key = stack)
      if merged = current then none
      else
        let known := view.outSeq.getD stack 0
        some (⟨stack, view.outBehind.getD stack known, known + 1, merged⟩ : StackChange)).map
      StackChange.stack).Sublist names := by
  induction names with
  | nil => exact List.Sublist.refl _
  | cons stack names ih =>
    rw [List.filterMap_cons]
    dsimp only
    split
    next => exact ih.cons stack
    next change hchange =>
      split at hchange
      next => cases hchange
      next =>
        cases hchange
        exact ih.cons_cons stack

theorem nodup_stackChanges (view : View) (outputs : Dict String Value) (dropped : List String) :
    ((stackChanges view outputs dropped).map StackChange.stack).Nodup :=
  (stackChanges_sublist view outputs dropped _).nodup (nodup_sortedSet _)

/-! ## Transactions -/

theorem ItemsOk.sublist {history : History} {items items' : List TransactItem}
    (hok : ItemsOk history items) (hsub : items'.Sublist items) : ItemsOk history items' where
  update update hmem := hok.update update (hsub.subset hmem)
  distinct := (hsub.filterMap _).nodup hok.distinct

theorem ItemsOk.append {history : History} {items : List TransactItem}
    (hok : ItemsOk history items) (more : History) : ItemsOk (more ++ history) items where
  update update hmem := (hok.update update hmem).imp_left fun h => h.append more
  distinct := hok.distinct

theorem safe_transact {items : List TransactItem} (hok : ItemsOk world.history items)
    (budget : Nat) : SafeTask tid (transact items budget) world anyway := by
  induction budget generalizing world with
  | zero => trivial
  | succ budget ih =>
    intro a hrely hinva
    obtain ⟨more, hgrows⟩ := hrely.evolves
    have hoka : ItemsOk a.history items := hgrows.history ▸ hok.append more
    have hlegit : Legit tid a (.aws (.transact items)) := hoka
    refine ⟨hlegit, fun choice hinv' => ?_⟩
    obtain ⟨-, happened, hgrows', -⟩ := World.serve_keeps hinva hlegit choice
    have hokb : ItemsOk (a.serve tid choice (.aws (.transact items))).2.history items :=
      hgrows'.history ▸ hoka.append happened
    generalize (a.serve tid choice (.aws (.transact items))).1 = reply
    match reply with
    | none => trivial
    | some .applied => trivial
    | some (.refused failed) => trivial
    | some .transient => exact ih hokb

/-! ## The view under an output commit -/

/-- The process has a view, of a snapshot. -/
def ViewKnown (tid : Tid) (world : World) : Prop :=
  ∃ view, (world.memory tid.process).view = some view ∧ view.epoch ≠ none

theorem View.absorb_epoch (view : View) (item : Item) (seq : Nat) (value : ItemValue) :
    (view.absorb item seq value).epoch = view.epoch := by
  unfold View.absorb
  dsimp only
  split
  · rfl
  · split <;> rfl

theorem ViewKnown.rely {world' : World} (hknown : ViewKnown tid world) (hmain : tid.thread = 0)
    (hrely : Rely tid world world') : ViewKnown tid world' := by
  obtain ⟨view, hview, hepoch⟩ := hknown
  obtain ⟨later, hlater, hepoch', -⟩ := hrely.2 hmain view hview hepoch
  exact ⟨later, hlater, hepoch'⟩

theorem ViewHeld.known {view : View} (hheld : ViewHeld tid view world) (hmain : tid.thread = 0)
    (hepoch : view.epoch ≠ none) : ViewKnown tid world := by
  obtain ⟨current, hcurrent, hepoch', -⟩ := hheld hmain hepoch
  exact ⟨current, hcurrent, hepoch'⟩

theorem ViewKnown.serve (hknown : ViewKnown tid world) {request : Request}
    (hkeeps : request.Output) (choice : Choice) :
    ViewKnown tid (world.serve tid choice request).2 := by
  obtain ⟨view, hview, hepoch⟩ := hknown
  cases request with
  | aws request =>
    refine ⟨view, ?_, hepoch⟩
    simp only [World.serve, World.serveAws]
    cases choice.fate <;> exact hview
  | memory op =>
    have hsame : ((world.memory tid.process).serve op).2.1.view = (world.memory tid.process).view →
        ViewKnown tid (world.serve tid choice (.memory op)).2 := fun h =>
      ⟨view, by rw [memory_serve, h, hview], hepoch⟩
    cases op with
    | dropView => exact hkeeps.elim
    | dropViewIf stale => exact hkeeps.elim
    | resetViews => exact hkeeps.elim
    | installView fresh =>
      refine ⟨view, ?_, hepoch⟩
      rw [memory_serve]
      simp only [Memory.serve, hview]
    | record item seq value =>
      refine ⟨view.absorb item seq value, ?_, ?_⟩
      · rw [memory_serve]
        simp only [Memory.serve, hview]
      · rwa [view.absorb_epoch]
    | absorb item seq value =>
      refine ⟨view.absorb item seq value, ?_, ?_⟩
      · rw [memory_serve]
        simp only [Memory.serve, hview, Option.map_some]
      · rwa [view.absorb_epoch]
    | setBehind stack seq =>
      refine ⟨{ view with outBehind := view.outBehind.insert stack seq }, ?_, hepoch⟩
      rw [memory_serve]
      simp only [Memory.serve, hview, Option.map_some]
    | _ => exact hsame rfl
  | uuid => exact ⟨view, hview, hepoch⟩
  | schedule => exact ⟨view, hview, hepoch⟩
  | paging => exact ⟨view, hview, hepoch⟩

/-- A part of the main thread that drops no view keeps the process's. -/
theorem SafeTask.viewKnown {α : Type} {program : Backend α} {post : World → Except Error α → Prop}
    (hsafe : SafeTask tid program world post) (honly : program.Only Request.Output)
    (hmain : tid.thread = 0) (hknown : ViewKnown tid world) (hinv : WorldInv world) :
    SafeTask tid program world fun world' outcome => ViewKnown tid world' ∧ post world' outcome := by
  have hwithin := Safe.within (Safe.only hsafe honly)
    (fun a b => ViewKnown tid a → ViewKnown tid b) (fun _ h => h) (fun _ _ _ hab hbc h => hbc (hab h))
    (fun _ _ hrely h => h.rely hmain hrely)
    (fun choice _ _ _ hrequest _ h => h.serve hrequest.1 choice) hinv
  refine Safe.mono (Safe.weaken hwithin (keeping tid) (fun _ h => h) (fun _ _ h => h)
    fun _ _ _ h => h.2) ?_
  exact fun a outcome h => ⟨h.1 hknown, h.2.2⟩

namespace OutputWrites

theorem withinStack_outputEntry (lease : Option Lease) {change : StackChange} (hok : change.Ok) :
    (outputEntry lease change).WithinStack := by
  intro values _ houtputs key value hvalue
  simp only [outputEntry] at houtputs
  split at houtputs
  next => cases houtputs
  next =>
    cases houtputs
    exact hok.within key value hvalue

theorem safe_refusalFor (failed : List Nat) (changes : List StackChange) (fenced : List String)
    (lease : Option Lease) (hinv : WorldInv world) :
    SafeTask tid (refusalFor failed changes fenced lease) world anyway := by
  unfold refusalFor
  split
  · exact SafeTask.andThen (Reads.safe_getHead _) hinv (fun _ _ _ _ _ => trivial) fun _ _ => trivial
  · trivial

theorem safe_transactOutputs {items : List TransactItem} (hok : ItemsOk world.history items)
    (changes : List StackChange) (fenced : List String) (lease : Option Lease)
    (hinv : WorldInv world) :
    SafeTask tid (transactOutputs items changes fenced lease) world anyway := by
  refine SafeTask.andThen (safe_transact hok _) hinv ?_ fun _ _ => trivial
  rintro a ⟨refused, budget⟩ - hinva -
  cases refused with
  | none => trivial
  | some failed => exact safe_refusalFor failed changes fenced lease hinva

theorem safe_committed (hmain : tid.thread = 0) (changes : List StackChange) :
    SafeTask tid (committed changes) world anyway := by
  induction changes generalizing world with
  | nil => trivial
  | cons change changes ih =>
    have hrecord : SafeTask tid (memory (.record ⟨.output, change.stack⟩ change.seq
        (.outputs change.merged))) world anyway := safe_memory_any fun _ _ _ => Or.inl hmain
    refine Safe.bind (hrecord.mono ?_)
    rintro a (error | _) -
    · trivial
    · exact ih

theorem safe_precheckFences (fenced : List String) (lease : Lease) (hinv : WorldInv world) :
    SafeTask tid (precheckFences fenced lease) world anyway := by
  refine SafeTask.andThen (Reads.safe_readHeads _ hinv) hinv ?_ fun _ _ => trivial
  rintro a heads - - -
  split <;> trivial

theorem safe_commitChunks (hmain : tid.thread = 0) (lease : Option Lease)
    {chunks : List (List (StackChange × TransactItem))} (hinv : WorldInv world)
    (hok : ∀ chunk ∈ chunks, ItemsOk world.history (chunk.map Prod.snd)) :
    SafeTask tid (commitChunks lease chunks) world anyway := by
  induction chunks generalizing world with
  | nil => trivial
  | cons chunk chunks ih =>
    refine SafeTask.andThen (safe_transactOutputs (hok chunk (List.mem_cons_self ..)) _ _ _ hinv) hinv
      ?_ fun _ _ => trivial
    rintro a moved ⟨more, hgrows⟩ hinva -
    have hrest : ∀ b, Evolves a b → WorldInv b →
        SafeTask tid (do
          let rest ← commitChunks lease chunks
          pure (moved ++ rest)) b anyway := by
      rintro b ⟨more', hgrows'⟩ hinvb
      refine SafeTask.andThen (ih hinvb fun other hmem => ?_) hinvb (fun _ _ _ _ _ => trivial)
        fun _ _ => trivial
      rw [hgrows'.history, hgrows.history]
      exact ((hok other (List.mem_cons_of_mem _ hmem)).append more).append more'
    dsimp only
    split
    · exact SafeTask.andThen (safe_committed hmain _) hinva (fun b _ h hinvb _ => hrest b h hinvb)
        fun _ _ => trivial
    · exact hrest a (.refl a) hinva

/-- The updates of freshly stored entries are legitimate, with any fence checks beside them. -/
theorem itemsOk {history : History} {changes : List StackChange} {refs : List EntryKey}
    {lease : Option Lease} {checks : List TransactItem} (hok : ∀ change ∈ changes, change.Ok)
    (hnodup : (changes.map StackChange.stack).Nodup) (hlength : refs.length = changes.length)
    (hstored : ∀ (i : Nat) (change : StackChange) (ref : EntryKey), changes[i]? = some change →
      refs[i]? = some ref → Stored history ref (outputEntry lease change) ∧
        ref.item = ⟨.output, change.stack⟩ ∧ ref.seq = change.seq)
    (hchecks : ∀ item ∈ checks, ∃ node fence, item = .checkFence node fence) :
    ItemsOk history ((changes.zip refs).map (fun (change, ref) =>
      outputUpdate change (outputEntry lease change) ref) ++ checks) := by
  constructor
  · intro update hmem
    rcases List.mem_append.mp hmem with hmem | hmem
    · obtain ⟨⟨change, ref⟩, hpair, hupdate⟩ := List.mem_map.mp hmem
      cases hupdate
      obtain ⟨i, hindex⟩ := List.mem_iff_getElem?.mp hpair
      obtain ⟨hchange, href⟩ := List.getElem?_zip_eq_some.mp hindex
      obtain ⟨hentry, hitem, hseq⟩ := hstored i change ref hchange href
      have hrises := (hok change (List.mem_of_getElem? hchange)).rises
      exact ⟨⟨rfl, ⟨_, rfl, hrises⟩, hitem, hseq, _, hentry⟩, rfl⟩
    · obtain ⟨node, fence, h⟩ := hchecks _ hmem
      cases h
  · have hnone : checks.filterMap TransactItem.updated = [] := by
      rw [List.filterMap_eq_nil_iff]
      intro item hmem
      obtain ⟨node, fence, rfl⟩ := hchecks item hmem
      rfl
    have hitems : ((changes.zip refs).map fun (change, ref) =>
        outputUpdate change (outputEntry lease change) ref).filterMap TransactItem.updated =
          ((changes.zip refs).map Prod.fst).map fun change => ⟨.output, change.stack⟩ := by
      rw [List.filterMap_map, List.map_map, ← List.filterMap_eq_map]
      rfl
    rw [List.filterMap_append, hnone, List.append_nil, hitems, List.map_fst_zip (by omega)]
    have hinj : (changes.map fun change => (⟨.output, change.stack⟩ : Item)) =
        (changes.map StackChange.stack).map fun stack => ⟨.output, stack⟩ := by
      rw [List.map_map]
      rfl
    rw [hinj]
    exact hnodup.map fun a b h => by simpa using h

theorem safe_commit (hmain : tid.thread = 0) {changes : List StackChange} (fenced : List String)
    (lease : Option Lease) (hok : ∀ change ∈ changes, change.Ok)
    (hnodup : (changes.map StackChange.stack).Nodup) (hinv : WorldInv world) :
    SafeTask tid (commit changes fenced lease) world anyway := by
  refine SafeTask.andThen (safe_parallel
    (fun change request => request = .aws (.putEntry (outputEntry lease change)))
    (fun _ _ => True)
    (fun change => onOk fun a ref => Stored a.history ref (outputEntry lease change) ∧
      ref.item = ⟨.output, change.stack⟩ ∧ ref.seq = change.seq)
    (fun _ _ _ _ _ _ _ _ _ _ _ => trivial) ?_ hinv
    fun change hchange _ _ _ => Writes.safe_putEntry (withinStack_outputEntry lease (hok change hchange)))
    hinv ?_ fun _ _ => trivial
  · rintro change a b (error | ref) ⟨more, hgrows, -⟩ - hgoal
    · trivial
    · exact ⟨hgrows.history ▸ hgoal.1.append more, hgoal.2⟩
  rintro a refs - hinva ⟨hlength, hstored⟩
  have hnone : ∀ item ∈ ([] : List TransactItem), ∃ node fence, item = .checkFence node fence :=
    fun _ h => nomatch h
  have hwhole : ∀ checks : List TransactItem,
      (∀ item ∈ checks, ∃ node fence, item = .checkFence node fence) →
      SafeTask tid (do
        let moved ← transactOutputs ((changes.zip refs).map (fun (change, ref) =>
          outputUpdate change (outputEntry lease change) ref) ++ checks) changes fenced lease
        if moved = [] then committed changes else pure ()
        pure moved) a anyway := by
    intro checks hchecks
    refine SafeTask.andThen (safe_transactOutputs (itemsOk hok hnodup hlength hstored hchecks) _ _ _ hinva)
      hinva ?_ fun _ _ => trivial
    rintro b moved - hinvb -
    dsimp only
    split
    · exact SafeTask.andThen (safe_committed hmain _) hinvb (fun _ _ _ _ _ => trivial)
        fun _ _ => trivial
    · trivial
  have hchunks : ∀ b, Evolves a b → WorldInv b →
      SafeTask tid (commitChunks lease (batched limits.transactMax (changes.zip
        ((changes.zip refs).map fun (change, ref) =>
          outputUpdate change (outputEntry lease change) ref)))) b anyway := by
    rintro b ⟨more, hgrows⟩ hinvb
    refine safe_commitChunks hmain lease hinvb fun chunk hchunk => ?_
    have hall : ItemsOk b.history _ :=
      hgrows.history ▸ (itemsOk hok hnodup hlength hstored hnone).append more
    refine hall.sublist ?_
    rw [List.append_nil]
    refine ((sublist_of_mem_batched hchunk).map Prod.snd).trans ?_
    rw [List.map_snd_zip (by simp [hlength])]
  cases lease with
  | none => exact SafeTask.ite (fun _ => hwhole [] hnone) fun _ => hchunks a (.refl a) hinva
  | some lease =>
    refine SafeTask.ite (fun _ => hwhole _ fun item hmem => ?_) fun _ => ?_
    · obtain ⟨node, -, rfl⟩ := List.mem_map.mp hmem
      exact ⟨node, lease.fence, rfl⟩
    · exact SafeTask.andThen (safe_precheckFences fenced lease hinva) hinva
        (fun b _ h hinvb _ => hchunks b h hinvb) fun _ _ => trivial

theorem safe_memoryKnown {op : MemoryOp} (hkeeps : (Request.memory op).Output)
    (hmain : tid.thread = 0) (hknown : ViewKnown tid world)
    (hlegit : ∀ a, Rely tid world a → MemoryLegit tid (a.memory tid.process) op) :
    SafeTask tid (memory op) world fun a _ => ViewKnown tid a :=
  safe_memory (fun a hrely _ => hlegit a hrely) fun _ choice hrely _ _ =>
    (hknown.rely hmain hrely).serve hkeeps choice

theorem safe_refreshStack (hmain : tid.thread = 0) (hknown : ViewKnown tid world)
    {heads : Dict Item Head} {stack : String}
    (hhead : (heads.getD ⟨.output, stack⟩ {}).seq = none ↔ (heads.getD ⟨.output, stack⟩ {}).ref = none)
    (hinv : WorldInv world) :
    SafeTask tid (refreshStack heads stack) world (onOk fun a more => more = true → ViewKnown tid a) := by
  have hdone : ∀ {a : World} {op : MemoryOp} (next : op.Result → Backend Bool),
      (∀ result, next result = .ret true) → (Request.memory op).Output → ViewKnown tid a →
      (∀ b, Rely tid a b → MemoryLegit tid (b.memory tid.process) op) →
      SafeTask tid ((memory op).bind next) a (onOk fun b more => more = true → ViewKnown tid b) := by
    intro a op next hnext hkeeps hknowna hlegit
    refine Safe.bind ((safe_memoryKnown hkeeps hmain hknowna hlegit).mono ?_)
    rintro b (error | result) hknownb
    · trivial
    · dsimp only
      rw [hnext]
      exact fun _ => hknownb
  have hread : SafeTask tid (memory .view) world (onOk fun a found => ∃ view, found = some view ∧
      view.epoch ≠ none ∧ ViewHeld tid view a) := by
    refine safe_memory (fun _ _ _ => trivial) ?_
    intro a choice hrely _ _
    obtain ⟨view, hview, hepoch⟩ := hknown.rely hmain hrely
    refine ⟨view, hview, hepoch, .of_view ?_⟩
    rw [memory_serve]
    exact hview
  refine SafeTask.andThen hread hinv ?_ fun _ _ => trivial
  rintro a found - hinva ⟨view, rfl, hepoch, hheld⟩
  have hknowna := hheld.known hmain hepoch
  dsimp only [Option.map_some, Option.getD_some]
  split
  next seq ref hseq href =>
    refine SafeTask.ite (fun hle => ?_) fun _ => ?_
    · refine hdone _ (fun _ => rfl) trivial hknowna fun b hrely => ⟨hmain, fun current hcurrent => ?_⟩
      obtain ⟨later, hlater, -, hsame⟩ := (hheld.rely hrely) hmain hepoch
      rw [hlater, Option.some.injEq] at hcurrent
      rw [← hcurrent, hsame]
      exact hle
    · have hentry : SafeThread tid (fun _ => True) _ (Reads.getEntry ref) a _ :=
        Reads.safe_getEntry ref
      have hfetched := SafeTask.viewKnown hentry.task (Reads.output_getEntry ref) hmain hknowna hinva
      refine Safe.bind (Safe.outcome (hfetched.mono ?_))
      rintro b (error | entry) ⟨hknownb, -⟩
      · cases error with
        | entryVanished =>
          have hdrop : SafeTask tid (memory .dropView) b anyway := safe_memory_any fun _ _ _ => hmain
          refine Safe.bind (hdrop.mono ?_)
          rintro c (error | _) -
          · trivial
          · exact fun h => nomatch h
        | _ => trivial
      · exact hdone _ (fun _ => rfl) trivial hknownb fun _ _ => hmain
  next seq ref hnot =>
    refine hdone _ (fun _ => rfl) trivial hknowna fun b _ => ⟨hmain, fun current _ => ?_⟩
    -- A head with a sequence number names an entry, so this one has none.
    have hnone : (heads.getD ⟨.output, stack⟩ {}).seq = none := by
      by_contra hsome
      obtain ⟨seq', hseq'⟩ := Option.ne_none_iff_exists'.mp hsome
      obtain ⟨ref', href'⟩ := Option.ne_none_iff_exists'.mp fun h => hsome (hhead.mpr h)
      exact hnot seq' ref' hseq' href'
    rw [hnone]
    exact Nat.zero_le _

theorem safe_refreshEach (hmain : tid.thread = 0) (hknown : ViewKnown tid world)
    {heads : Dict Item Head} {names : List String}
    (hheads : ∀ stack ∈ names, (heads.getD ⟨.output, stack⟩ {}).seq = none ↔
      (heads.getD ⟨.output, stack⟩ {}).ref = none) (hinv : WorldInv world) :
    SafeTask tid (refreshEach heads names) world anyway := by
  induction names generalizing world with
  | nil => trivial
  | cons stack names ih =>
    refine SafeTask.andThen (safe_refreshStack hmain hknown (hheads stack (List.mem_cons_self ..)) hinv)
      hinv ?_ fun _ _ => trivial
    intro a more _ hinva hmore
    refine SafeTask.ite (fun hgoes => ?_) fun _ => trivial
    exact ih (hmore hgoes) (fun other hmem => hheads other (List.mem_cons_of_mem _ hmem)) hinva

theorem safe_refreshStacks (hmain : tid.thread = 0) (hknown : ViewKnown tid world)
    (names : List String) (hinv : WorldInv world) :
    SafeTask tid (refreshStacks names) world anyway := by
  refine SafeTask.andThen (SafeTask.viewKnown (Reads.safe_readHeads _ hinv)
    (Reads.output_readHeads _) hmain hknown hinv) hinv ?_ fun _ _ => trivial
  rintro a heads - hinva ⟨hknowna, hseen⟩
  refine safe_refreshEach hmain hknowna (fun stack hmem => ?_) hinva
  rw [mem_sortedSet] at hmem
  obtain ⟨past, -, -, hat⟩ := (hseen ⟨.output, stack⟩).1 (List.mem_map.mpr ⟨stack, hmem, rfl⟩)
  have hseq := hat.seq
  have href := hat.ref
  rw [Std.ExtTreeMap.getD_eq_getD_getElem?]
  cases hhead : heads[(⟨.output, stack⟩ : Item)]? with
  | none => simp
  | some head =>
    rw [hhead, Option.bind_some] at hseq href
    rw [Option.getD_some, hseq, href, Option.map_eq_none_iff, Option.map_eq_none_iff]

theorem safe_setOutputs (hmain : tid.thread = 0) (outputs : Dict String Value) (remove : List String)
    (hinv : WorldInv world) : SafeTask tid (setOutputs outputs remove) world anyway := by
  refine SafeTask.andThen (safe_memory_any fun _ _ _ => trivial) hinv ?_ fun _ _ => trivial
  rintro a lease - hinva -
  generalize limits.casAttempts = attempts
  induction attempts generalizing a with
  | zero => trivial
  | succ attempts ih =>
    refine SafeTask.andThen (Views.safe_writable hinva) hinva ?_ fun _ _ => trivial
    rintro b view - hinvb ⟨hbehind, hepoch, hheld⟩
    dsimp only
    split
    · trivial
    next =>
      refine SafeTask.andThen (SafeTask.viewKnown
        (safe_commit hmain _ lease (fun change hmem => stackChanges_ok hbehind hmem)
          (nodup_stackChanges view outputs remove) hinvb)
        (output_commit _ _ _) hmain (hheld.known hmain hepoch) hinvb) hinvb ?_ fun _ _ => trivial
      rintro c moved - hinvc ⟨hknown, -⟩
      cases moved with
      | nil => trivial
      | cons stack moved =>
        exact SafeTask.andThen (safe_refreshStacks hmain hknown _ hinvc) hinvc
          (fun d _ _ hinvd _ => ih d hinvd) fun _ _ => trivial

end OutputWrites

end Atlantide
