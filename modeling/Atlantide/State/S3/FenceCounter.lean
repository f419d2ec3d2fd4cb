import Atlantide.State.S3.Fencing

/-! # The fence counter

One item of the lock table mints every lease's fence. Each bump of it is atomic, so as long as the
item is there the fences only grow. When it was lost the next bump starts it over, from a seed that
the caller derives from the highest fence the snapshot records, and that seed may be too low. -/

namespace Atlantide

open Interleaving

/-- What a caller does: any call of a backend, or `nextFence` alone, with the highest fence the
snapshot records. -/
inductive FenceCall
  | backend (call : Call)
  | nextFence (above : Nat)

inductive FenceResult
  | result (result : Result)
  | fence (fence : Nat)

def FenceCall.program (ctx : S3Context) (tid : Tid) : FenceCall → Backend FenceResult
  | backend call => do pure (.result (← (backends ctx).program tid call))
  | nextFence above => do pure (.fence (← Fences.nextFence above))

abbrev Callers := System.Config Tid World Request Request.Reply FenceCall Error FenceResult

/-- Any number of callers over one pair of stores, with `env` for what else happens to them. -/
def callers (ctx : S3Context) {Env : Type} (env : Env → World → World) :
    System Tid Choice World Request Request.Reply Env FenceCall Error FenceResult where
  serve := World.serve
  env := env
  program := FenceCall.program ctx

/-- The surroundings of a backend, where the counter item may be lost with its table. -/
inductive Mishap
  | surroundings (event : Surroundings)
  | loseCounter

def World.suffer (event : Mishap) (world : World) : World :=
  match event with
  | .surroundings event => world.env event
  | .loseCounter => { world with store := { world.store with counter := none } }

/-! ## The fences minted in a run -/

structure Mint where
  call : FenceCall
  fence : Nat

/-- Whether the program is about to bump the counter. -/
def bumpsNext : Backend FenceResult → Bool
  | .ask (.aws (.bumpFence ..)) _ => true
  | _ => false

/-- The fence a step mints: what a bump is answered with, unless its call then bumps again. -/
def mintedBy {Env : Type} (act : System.Act Tid Choice Env FenceCall) (config : Callers) :
    List Mint :=
  match act with
  | .serve tid choice =>
    match config.tasks tid with
    | some ⟨call, .ask (.aws (.bumpFence amount seed)) next⟩ =>
      let fence : Nat := config.world.store.counter.getD seed + amount
      if choice.fate = .answered ∧ bumpsNext (next (some fence)) = false then [⟨call, fence⟩] else []
    | _ => []
  | _ => []

variable {ctx : S3Context} {Env : Type} {env : Env → World → World}

/-- The fences minted in a run, oldest first. -/
def mints (system : System Tid Choice World Request Request.Reply Env FenceCall Error FenceResult) :
    List (System.Act Tid Choice Env FenceCall) → Callers → List Mint
  | [], _ => []
  | act :: acts, config =>
    match system.step act config with
    | some next => mintedBy act config ++ mints system acts next
    | none => []

/-- A step that bumps a missing counter starts it over past every fence minted so far: none was, or
this is the first bump of a call that was passed a positive highest fence, and none is more than
`reseedGap` above that. -/
def startsPast (fences : List Nat) (act : System.Act Tid Choice Env FenceCall) (config : Callers) :
    Bool :=
  match act with
  | .serve tid choice =>
    match config.tasks tid with
    | some ⟨_, .ask (.aws (.bumpFence amount seed)) _⟩ =>
      config.world.store.counter.isSome || decide (choice.fate = .failed ∨ choice.fate = .transient) ||
        fences.isEmpty ||
          amount = 1 && limits.reseedGap < seed && fences.all fun fence => fence ≤ seed
    | _ => true
  | _ => true

/-- Every step of the run does, after `fences` were minted. -/
def allStartPast
    (system : System Tid Choice World Request Request.Reply Env FenceCall Error FenceResult) :
    List Nat → List (System.Act Tid Choice Env FenceCall) → Callers → Bool
  | _, [], _ => true
  | fences, act :: acts, config => startsPast fences act config &&
      match system.step act config with
      | some next => allStartPast system (fences ++ (mintedBy act config).map Mint.fence) acts next
      | none => true

/-! ## What a step does to the counter -/

theorem Store.counter_applyItems (items : List TransactItem) (store : Store) :
    (Store.applyItems items store).1.counter = store.counter := by
  induction items generalizing store with
  | nil => rfl
  | cons item items ih =>
    calc (Store.applyItems (item :: items) store).1.counter
        = (store.applyItem item).counter := ih (store.applyItem item)
      _ = store.counter := by cases item <;> rfl

/-- Only a bump moves the counter. -/
theorem Store.counter_serve (store : Store) {request : AwsRequest}
    (hother : ∀ amount seed, request ≠ .bumpFence amount seed) :
    (store.serve request).2.1.counter = store.counter := by
  cases request with
  | bumpFence amount seed => exact absurd rfl (hother amount seed)
  | transact items =>
    unfold Store.serve
    dsimp only
    split
    · exact Store.counter_applyItems items store
    · rfl
  | putSnapshot | updateHead | extendLease | revokeLease | deleteLease | deleteRow =>
    unfold Store.serve
    dsimp only
    repeat' split
    all_goals rfl
  | _ => rfl

theorem World.counter_serve (world : World) (tid : Tid) (choice : Choice) {request : Request}
    (hother : ∀ amount seed, request ≠ .aws (.bumpFence amount seed)) :
    (world.serve tid choice request).2.store.counter = world.store.counter := by
  cases request with
  | aws request =>
    have hkept := @Store.counter_serve world.store request fun amount seed h =>
      hother amount seed (h ▸ rfl)
    change (world.serveAws tid choice request).2.store.counter = _
    unfold World.serveAws
    cases choice.fate with
    | answered | lost => exact hkept
    | failed | transient => rfl
  | _ => rfl

theorem only_callers (tid : Tid) (call : FenceCall) :
    (call.program ctx tid).Only fun request => request.Journal ∨ request.Locking := by
  cases call with
  | nextFence above =>
    exact Prog.Only.bind ((LockTable.locking_nextFence above).mono fun _ => Or.inr) fun _ => trivial
  | backend call =>
    refine Prog.Only.bind ?_ fun _ => trivial
    change Prog.Only _ (if _ then _ else _)
    exact Prog.Only.ite (only_program ctx call) trivial

/-- A step either leaves the counter alone, for the surroundings to change, or it bumps it. -/
inductive CounterStep (env : Env → World → World) (fences : List Nat)
    (act : System.Act Tid Choice Env FenceCall) (config : Callers) (after : Option Nat) : Prop
  | kept (hminted : mintedBy act config = [])
      (hafter : after = config.world.store.counter ∨
        ∃ event, after = (env event config.world).store.counter)
  | bumped (amount seed : Nat) (hpositive : 0 < amount)
      (hafter : after = some (config.world.store.counter.getD seed + amount))
      (hminted : ∀ mint ∈ mintedBy act config,
        mint.fence = config.world.store.counter.getD seed + amount)
      (hone : (mintedBy act config).length ≤ 1)
      (hstart : startsPast fences act config = true → config.world.store.counter = none →
        ∀ fence ∈ fences, fence ≤ seed)

theorem below_of_startsPast {fences : List Nat} {config : Callers} {tid : Tid} {choice : Choice}
    {call : FenceCall} {amount seed : Nat}
    {next : (Request.aws (.bumpFence amount seed)).Reply → Backend FenceResult}
    (htask : config.tasks tid = some ⟨call, .ask (.aws (.bumpFence amount seed)) next⟩)
    (hfate : ¬ (choice.fate = .failed ∨ choice.fate = .transient))
    (hnone : config.world.store.counter = none)
    (hstart : startsPast fences (.serve tid choice : System.Act Tid Choice Env FenceCall) config =
      true) : ∀ fence ∈ fences, fence ≤ seed := by
  simp only [startsPast, htask, hnone, hfate, Option.isSome_none, decide_false, Bool.false_or,
    Bool.or_eq_true, List.isEmpty_iff, Bool.and_eq_true, List.all_eq_true,
    decide_eq_true_eq] at hstart
  rcases hstart with hempty | ⟨-, hbelow⟩
  · intro fence hmem
    rw [hempty] at hmem
    cases hmem
  · exact hbelow

theorem counterStep_of_step {config config' : Callers}
    {act : System.Act Tid Choice Env FenceCall} (fences : List Nat)
    (hasks : ∀ tid task, config.tasks tid = some task →
      task.program.Only fun request => request.Journal ∨ request.Locking)
    (hstep : (callers ctx env).step act config = some config') :
    CounterStep env fences act config config'.world.store.counter := by
  cases act with
  | start tid call =>
    simp only [System.step] at hstep
    split at hstep
    · cases hstep
    · cases hstep
      exact .kept rfl (.inl rfl)
  | env event =>
    cases hstep
    exact .kept rfl (.inr ⟨event, rfl⟩)
  | serve tid choice =>
    simp only [System.step] at hstep
    split at hstep
    next call request next htask =>
      cases hstep
      by_cases hbump : ∃ amount seed, request = .aws (.bumpFence amount seed)
      · obtain ⟨amount, seed, rfl⟩ := hbump
        have hpositive : 0 < amount := (hasks tid _ htask).1.elim False.elim id
        cases hfate : choice.fate with
        | answered =>
          refine .bumped amount seed hpositive ?_ (fun mint hmint => ?_) ?_ fun hstart hnone => ?_
          · change (World.serveAws tid choice config.world _).2.store.counter = _
            rw [World.serveAws, hfate]
            rfl
          · simp only [mintedBy, htask] at hmint
            split at hmint
            · rw [List.mem_singleton.mp hmint]
            · cases hmint
          · simp only [mintedBy, htask]
            split
            · exact Nat.le_refl 1
            · exact Nat.zero_le 1
          · exact below_of_startsPast htask (by simp [hfate]) hnone hstart
        | lost =>
          have hnothing :
              mintedBy (.serve tid choice : System.Act Tid Choice Env FenceCall) config = [] := by
            simp only [mintedBy, htask, hfate, reduceCtorEq, false_and, if_false]
          refine .bumped amount seed hpositive ?_ (by simp [hnothing]) (by simp [hnothing])
            fun hstart hnone => ?_
          · change (World.serveAws tid choice config.world _).2.store.counter = _
            rw [World.serveAws, hfate]
            rfl
          · exact below_of_startsPast htask (by simp [hfate]) hnone hstart
        | failed | transient =>
          refine .kept ?_ (.inl ?_)
          · simp only [mintedBy, htask, hfate, reduceCtorEq, false_and, if_false]
          · change (World.serveAws tid choice config.world _).2.store.counter = _
            rw [World.serveAws, hfate]
      · have hother : ∀ amount seed, request ≠ .aws (.bumpFence amount seed) :=
          fun amount seed h => hbump ⟨amount, seed, h⟩
        refine .kept ?_ (.inl (config.world.counter_serve tid choice hother))
        simp only [mintedBy, htask]
        split
        next h =>
          cases h
          exact absurd rfl (hother _ _)
        next => rfl
    next => cases hstep

/-! ## Fences only grow -/

/-- The fences come in order, and the counter is past them all. -/
structure Ahead (fences : List Nat) (config : Callers) : Prop where
  sorted : fences.Pairwise (· < ·)
  counted : ∀ fence ∈ fences, ∀ count, config.world.store.counter = some count → fence ≤ count

theorem Ahead.initial (world : World) : Ahead [] (System.initial world) :=
  ⟨.nil, fun _ hmem => nomatch hmem⟩

theorem Ahead.counterStep {fences : List Nat} {config config' : Callers}
    {act : System.Act Tid Choice Env FenceCall} (hahead : Ahead fences config)
    (henv : ∀ event world, (env event world).store.counter = world.store.counter ∨
      (env event world).store.counter = none)
    (hcounter : CounterStep env fences act config config'.world.store.counter)
    (hstart : startsPast fences act config = true) :
    Ahead (fences ++ (mintedBy act config).map Mint.fence) config' := by
  cases hcounter with
  | kept hminted hafter =>
    rw [hminted, List.map_nil, List.append_nil]
    refine ⟨hahead.sorted, fun fence hmem count hcount => ?_⟩
    rcases hafter with hsame | ⟨event, hevent⟩
    · exact hahead.counted fence hmem count (hsame.symm.trans hcount)
    · rcases henv event config.world with hsame | hnone
      · exact hahead.counted fence hmem count ((hevent.trans hsame).symm.trans hcount)
      · cases (hevent.trans hnone).symm.trans hcount
  | bumped amount seed hpositive hafter hminted hone hpast =>
    have hnewer : ∀ fence ∈ fences, fence < config.world.store.counter.getD seed + amount := by
      intro fence hmem
      cases hcounter : config.world.store.counter with
      | some count =>
        have hle := hahead.counted fence hmem count hcounter
        rw [Option.getD_some]
        omega
      | none =>
        rw [Option.getD_none]
        have hle := hpast hstart hcounter fence hmem
        omega
    refine ⟨List.pairwise_append.mpr ⟨hahead.sorted, ?_, fun fence hmem newer hnew => ?_⟩,
      fun fence hmem count hcount => ?_⟩
    · match hlist : mintedBy act config with
      | [] => exact .nil
      | [mint] => exact List.pairwise_singleton ..
      | _ :: _ :: _ => simp [hlist] at hone
    · obtain ⟨mint, hmint, rfl⟩ := List.mem_map.mp hnew
      rw [hminted mint hmint]
      exact hnewer fence hmem
    · rw [hafter, Option.some.injEq] at hcount
      subst hcount
      rcases List.mem_append.mp hmem with hold | hnew
      · exact Nat.le_of_lt (hnewer fence hold)
      · obtain ⟨mint, hmint, rfl⟩ := List.mem_map.mp hnew
        exact Nat.le_of_eq (hminted mint hmint)

theorem Ahead.run
    (henv : ∀ event world, (env event world).store.counter = world.store.counter ∨
      (env event world).store.counter = none)
    {acts : List (System.Act Tid Choice Env FenceCall)} {fences : List Nat} {config : Callers}
    (hahead : Ahead fences config)
    (hasks : ∀ tid task, config.tasks tid = some task →
      task.program.Only fun request => request.Journal ∨ request.Locking)
    (hstart : allStartPast (callers ctx env) fences acts config = true) :
    (fences ++ (mints (callers ctx env) acts config).map Mint.fence).Pairwise (· < ·) := by
  induction acts generalizing fences config with
  | nil =>
    rw [mints, List.map_nil, List.append_nil]
    exact hahead.sorted
  | cons act acts ih =>
    rw [mints]
    rw [allStartPast, Bool.and_eq_true] at hstart
    cases hstep : (callers ctx env).step act config with
    | none =>
      rw [List.map_nil, List.append_nil]
      exact hahead.sorted
    | some next =>
      rw [hstep] at hstart
      rw [List.map_append, ← List.append_assoc]
      have hcounter := counterStep_of_step fences hasks hstep
      exact ih (hahead.counterStep henv hcounter hstart.1) (System.only_step only_callers hstep hasks)
        hstart.2

/-! ## As long as the counter is there -/

/-- What is left of a call of `nextFence`: its first bump is to come, or its second one, after a first
that the counter still is past, or it has ended. -/
inductive NextFence (above : Nat) (counter : Option Nat) : Backend FenceResult → Prop
  | first (seed attempts : Nat) : NextFence above counter
      (((sendUpTo (.bumpFence 1 seed) attempts).bind fun fence : Nat =>
        if fence ≤ above then Fences.bumpFence (above - fence + 1) 0 else .ret fence).bind
          fun fence => .ret (.fence fence))
  | again (attempts fence count : Nat) (hle : fence ≤ above) (hcount : counter = some count)
      (hcounted : fence ≤ count) : NextFence above counter
      ((sendUpTo (.bumpFence (above - fence + 1) 0) attempts).bind fun fence => .ret (.fence fence))
  | ended {program : Backend FenceResult} (hended : ∀ request next, program ≠ .ask request next) :
      NextFence above counter program

theorem NextFence.mono {above : Nat} {counter counter' : Option Nat}
    {program : Backend FenceResult} (hnext : NextFence above counter program)
    (hgrows : FenceKept counter counter') : NextFence above counter' program := by
  cases hnext with
  | first seed attempts => exact .first seed attempts
  | ended hended => exact .ended hended
  | again attempts fence count hle hcount hcounted =>
    obtain ⟨count', hcount', hup⟩ := hgrows count hcount
    exact .again attempts fence count' hle hcount' (Nat.le_trans hcounted hup)

theorem CounterStep.grows {fences : List Nat} {act : System.Act Tid Choice Env FenceCall}
    {config : Callers} {after : Option Nat}
    (henv : ∀ event world, (env event world).store.counter = world.store.counter)
    (hcounter : CounterStep env fences act config after) :
    FenceKept config.world.store.counter after := by
  cases hcounter with
  | kept hminted hafter =>
    rcases hafter with hsame | ⟨event, hevent⟩
    · exact hsame ▸ .refl _
    · exact (hevent.trans (henv event config.world)) ▸ .refl _
  | bumped amount seed hpositive hafter =>
    intro count hcount
    refine ⟨_, hafter, ?_⟩
    rw [hcount, Option.getD_some]
    exact Nat.le_add_right ..

theorem serve_bump (world : World) (tid : Tid) (choice : Choice) (amount seed : Nat) :
    world.serve tid choice (.aws (.bumpFence amount seed)) =
      (if choice.fate = .answered then some (world.store.counter.getD seed + amount : Nat) else none,
        if choice.fate = .answered ∨ choice.fate = .lost then
          world.after tid (.bumpFence amount seed) else world) := by
  change world.serveAws tid choice _ = _
  unfold World.serveAws
  cases choice.fate <;> rfl

/-- Serving a `nextFence` leaves it one, and what it mints is past the fence it was passed. -/
theorem NextFence.serve {above : Nat} {config : Callers} {tid : Tid} {choice : Choice}
    {request : Request} {next : request.Reply → Backend FenceResult}
    (htask : config.tasks tid = some ⟨.nextFence above, .ask request next⟩)
    (hnext : NextFence above config.world.store.counter (.ask request next)) :
    NextFence above (config.world.serve tid choice request).2.store.counter
        (next (config.world.serve tid choice request).1) ∧
      ∀ mint ∈ mintedBy (.serve tid choice : System.Act Tid Choice Env FenceCall) config,
        above < mint.fence := by
  generalize hprogram : Prog.ask request next = program at hnext
  cases hnext with
  | ended hended => exact absurd hprogram.symm (hended request next)
  | first seed attempts =>
    cases attempts with
    | zero => cases hprogram
    | succ attempts =>
      change Prog.ask request next = .ask _ _ at hprogram
      cases hprogram
      rw [serve_bump]
      by_cases hfate : choice.fate = .answered
      · rw [if_pos hfate, if_pos (Or.inl hfate)]
        by_cases hle : config.world.store.counter.getD seed + 1 ≤ above
        · refine ⟨?_, fun mint hmint => ?_⟩
          · change NextFence above (some _) (Prog.bind (ite (_ ≤ above) _ _) _)
            rw [if_pos hle]
            exact .again limits.maxAttempts _ _ hle rfl (Nat.le_refl _)
          · simp only [mintedBy, htask, hfate, true_and] at hmint
            split at hmint
            next hends =>
              change bumpsNext (Prog.bind (ite (_ ≤ above) _ _) _) = false at hends
              rw [if_pos hle] at hends
              cases hends
            next => cases hmint
        · refine ⟨?_, fun mint hmint => ?_⟩
          · refine .ended fun request next h => ?_
            change Prog.bind (ite (_ ≤ above) _ _) _ = _ at h
            rw [if_neg hle] at h
            cases h
          · simp only [mintedBy, htask, hfate, true_and] at hmint
            split at hmint
            · rw [List.mem_singleton.mp hmint]
              exact Nat.lt_of_not_le hle
            · cases hmint
      · rw [if_neg hfate]
        refine ⟨.first seed attempts, fun mint hmint => ?_⟩
        simp only [mintedBy, htask, hfate, false_and, if_false] at hmint
        cases hmint
  | again attempts fence count hle hcount hcounted =>
    cases attempts with
    | zero => cases hprogram
    | succ attempts =>
      change Prog.ask request next = .ask _ _ at hprogram
      cases hprogram
      rw [serve_bump]
      by_cases hfate : choice.fate = .answered
      · rw [if_pos hfate]
        refine ⟨.ended nofun, fun mint hmint => ?_⟩
        simp only [mintedBy, htask, hfate, true_and] at hmint
        split at hmint
        · rw [List.mem_singleton.mp hmint, hcount, Option.getD_some]
          dsimp only
          omega
        · cases hmint
      · rw [if_neg hfate]
        refine ⟨?_, fun mint hmint => ?_⟩
        · have hkept : FenceKept config.world.store.counter (if choice.fate = .answered ∨
              choice.fate = .lost then config.world.after tid (.bumpFence (above - fence + 1) 0)
                else config.world).store.counter := by
            split
            · intro found hfound
              refine ⟨_, rfl, ?_⟩
              rw [hfound]
              exact Nat.le_add_right ..
            · exact .refl _
          obtain ⟨count', hcount', hup⟩ := hkept count hcount
          exact .again attempts fence count' hle hcount' (Nat.le_trans hcounted hup)
        · simp only [mintedBy, htask, hfate, false_and, if_false] at hmint
          cases hmint

/-- Nothing was minted while there is no counter, and every `nextFence` is at one of its points. -/
structure Steady (fences : List Nat) (config : Callers) : Prop where
  fresh : config.world.store.counter = none → fences = []
  calls : ∀ tid above program, config.tasks tid = some ⟨.nextFence above, program⟩ →
    NextFence above config.world.store.counter program

theorem Steady.initial (world : World) : Steady [] (System.initial world) :=
  ⟨fun _ => rfl, fun _ _ _ htask => nomatch htask⟩

theorem Steady.starts {fences : List Nat} {config : Callers}
    (hsteady : Steady fences config) (act : System.Act Tid Choice Env FenceCall) :
    startsPast fences act config = true := by
  unfold startsPast
  split
  · split
    · cases hcounter : config.world.store.counter with
      | some count => simp
      | none => simp [hsteady.fresh hcounter]
    · rfl
  · rfl

theorem Steady.minted {fences : List Nat} {config : Callers} (hsteady : Steady fences config)
    {act : System.Act Tid Choice Env FenceCall} {above : Nat} {mint : Mint}
    (hmint : mint ∈ mintedBy act config) (hcall : mint.call = .nextFence above) :
    above < mint.fence := by
  cases act with
  | start tid call => cases hmint
  | env event => cases hmint
  | serve tid choice =>
    have hmint' := hmint
    simp only [mintedBy] at hmint'
    split at hmint'
    next call amount seed next htask =>
      have hmine : call = .nextFence above := by
        split at hmint'
        · rw [List.mem_singleton.mp hmint'] at hcall
          exact hcall
        · cases hmint'
      subst hmine
      exact (@NextFence.serve Env _ _ _ _ _ _ htask (hsteady.calls tid above _ htask)).2 mint hmint
    next => cases hmint'

theorem Steady.step {fences : List Nat} {config config' : Callers}
    {act : System.Act Tid Choice Env FenceCall} (hsteady : Steady fences config)
    (henv : ∀ event world, (env event world).store.counter = world.store.counter)
    (hasks : ∀ tid task, config.tasks tid = some task →
      task.program.Only fun request => request.Journal ∨ request.Locking)
    (hstep : (callers ctx env).step act config = some config') :
    Steady (fences ++ (mintedBy act config).map Mint.fence) config' := by
  have hcounter := counterStep_of_step fences hasks hstep
  have hgrows := hcounter.grows henv
  refine ⟨fun hnone => ?_, fun tid' above program htask' => ?_⟩
  · have hnothing : config.world.store.counter = none := by
      cases hfound : config.world.store.counter with
      | none => rfl
      | some count =>
        obtain ⟨later, hlater, -⟩ := hgrows count hfound
        cases hnone.symm.trans hlater
    cases hcounter with
    | kept hminted hafter =>
      rw [hminted, List.map_nil, List.append_nil]
      exact hsteady.fresh hnothing
    | bumped amount seed hpositive hafter => cases hafter.symm.trans hnone
  · cases act with
    | start tid call =>
      simp only [System.step] at hstep
      split at hstep
      · cases hstep
      · cases hstep
        dsimp only at htask'
        by_cases hsame : tid' = tid
        · subst hsame
          rw [Function.update_self, Option.some.injEq] at htask'
          cases htask'
          exact .first _ limits.maxAttempts
        · rw [Function.update_of_ne hsame] at htask'
          exact hsteady.calls tid' above program htask'
    | serve tid choice =>
      simp only [System.step] at hstep
      split at hstep
      next call request next htask =>
        cases hstep
        dsimp only at htask'
        by_cases hsame : tid' = tid
        · subst hsame
          rw [Function.update_self, Option.some.injEq] at htask'
          cases htask'
          exact (@NextFence.serve Env _ _ _ _ _ _ htask (hsteady.calls tid' above _ htask)).1
        · rw [Function.update_of_ne hsame] at htask'
          exact (hsteady.calls tid' above program htask').mono hgrows
      next => cases hstep
    | env event =>
      cases hstep
      exact (hsteady.calls tid' above program htask').mono hgrows

theorem Steady.run
    (henv : ∀ event world, (env event world).store.counter = world.store.counter)
    {acts : List (System.Act Tid Choice Env FenceCall)} {fences : List Nat} {config : Callers}
    (hsteady : Steady fences config)
    (hasks : ∀ tid task, config.tasks tid = some task →
      task.program.Only fun request => request.Journal ∨ request.Locking) :
    allStartPast (callers ctx env) fences acts config = true ∧
      ∀ mint ∈ mints (callers ctx env) acts config, ∀ above, mint.call = .nextFence above →
        above < mint.fence := by
  induction acts generalizing fences config with
  | nil => exact ⟨rfl, fun _ hmem => nomatch hmem⟩
  | cons act acts ih =>
    rw [mints, allStartPast, hsteady.starts act, Bool.true_and]
    cases hstep : (callers ctx env).step act config with
    | none => exact ⟨rfl, fun _ hmem => nomatch hmem⟩
    | some next =>
      obtain ⟨hstart, hmints⟩ := ih (hsteady.step henv hasks hstep)
        (System.only_step only_callers hstep hasks)
      refine ⟨hstart, fun mint hmint above hcall => ?_⟩
      rcases List.mem_append.mp hmint with hmint | hmint
      · exact hsteady.minted hmint hcall
      · exact hmints mint hmint above hcall

def answers (tid : Tid) (requests : Nat) : List (System.Act Tid Choice Mishap FenceCall) :=
  List.replicate requests (.serve tid {})

/-- Two leases, with the counter lost in between and nothing folded yet. -/
def lostBeforeFold : List (System.Act Tid Choice Mishap FenceCall) :=
  .start ⟨0, 0⟩ (.backend (.acquire "first" 10 ["net:vpc"])) :: answers ⟨0, 0⟩ 13 ++
  [.env .loseCounter, .start ⟨1, 0⟩ (.backend (.acquire "second" 10 ["net:db"]))] ++
  answers ⟨1, 0⟩ 11

def Leased (history : History) (owner : String) (fence leaseId : Nat) : Prop :=
  ∃ moment ∈ history, moment.event = .leased leaseId owner fence

/-- Two leases, with the counter lost in between, once a fold has recorded the first one's fence. -/
def lostAfterFold : List (System.Act Tid Choice Mishap FenceCall) :=
  .start ⟨0, 0⟩ (.backend (.acquire "first" 10 ["net:vpc"])) :: answers ⟨0, 0⟩ 13 ++
  .start ⟨1, 0⟩ (.backend .compact) :: answers ⟨1, 0⟩ 6 ++
  [.env .loseCounter, .start ⟨1, 0⟩ (.backend (.acquire "second" 10 ["net:db"]))] ++
  answers ⟨1, 0⟩ 11

end Atlantide
