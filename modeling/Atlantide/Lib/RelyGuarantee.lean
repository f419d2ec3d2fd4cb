import Atlantide.Lib.Program

/-! # Rely-guarantee rules for programs

`Safe contract program world post`: from `world` on, whatever the other tasks do within
`contract.rely` between two requests, every request of the program is legitimate at the moment it
is served, and the program ends only in a world and with an outcome that `post` allows. The
invariant `contract.inv` is assumed of every world a request is served in; that legitimate requests
keep it is proved once, for the service, and not again for each program.

`System.reachable_safe` puts the tasks together: when each task's contract relies on no more than
the legitimate requests of the other tasks, every reachable world keeps the invariant and every
task is `Safe`. -/

namespace Interleaving

structure Contract (World Req : Type) where
  inv : World → Prop
  rely : World → World → Prop
  legit : World → Req → Prop

variable {Req : Type} {Reply : Req → Type} {ε δ α β Choice World : Type}

/-- The task's requests are answered by `serve`, whose nondeterminism is the choice. -/
def Safe (serve : Choice → World → (r : Req) → Reply r × World) (contract : Contract World Req) :
    Prog Req Reply ε α → World → (World → Except ε α → Prop) → Prop
  | .ret value, world, post => post world (.ok value)
  | .raise error, world, post => post world (.error error)
  | .ask request next, world, post =>
    ∀ world', contract.rely world world' → contract.inv world' →
      contract.legit world' request ∧
        ∀ choice, contract.inv (serve choice world' request).2 →
          Safe serve contract (next (serve choice world' request).1)
            (serve choice world' request).2 post

/-- The postcondition that says nothing of an error. -/
def onOk (post : World → α → Prop) : World → Except ε α → Prop
  | world, .ok value => post world value
  | _, .error _ => True

@[simp] theorem onOk_ok (post : World → α → Prop) (world : World) (value : α) :
    onOk (ε := ε) post world (.ok value) = post world value := rfl

@[simp] theorem onOk_error (post : World → α → Prop) (world : World) (error : ε) :
    onOk post world (.error error) = True := rfl

namespace Safe

variable {serve : Choice → World → (r : Req) → Reply r × World}
variable {contract : Contract World Req}
variable {program : Prog Req Reply ε α} {world : World}
variable {post post' : World → Except ε α → Prop}

theorem mono (hsafe : Safe serve contract program world post)
    (hpost : ∀ world outcome, post world outcome → post' world outcome) :
    Safe serve contract program world post' := by
  induction program generalizing world with
  | ret value => exact hpost _ _ hsafe
  | raise error => exact hpost _ _ hsafe
  | ask request next ih =>
    intro world' hrely hinv
    obtain ⟨hlegit, hnext⟩ := hsafe world' hrely hinv
    exact ⟨hlegit, fun choice hinv' => ih _ (hnext choice hinv')⟩

theorem bind {next : α → Prog Req Reply ε β} {post : World → Except ε β → Prop}
    (hsafe : Safe serve contract program world fun world outcome =>
      match outcome with
      | .ok value => Safe serve contract (next value) world post
      | .error error => post world (.error error)) :
    Safe serve contract (program.bind next) world post := by
  induction program generalizing world with
  | ret value => exact hsafe
  | raise error => exact hsafe
  | ask request resume ih =>
    intro world' hrely hinv
    obtain ⟨hlegit, hnext⟩ := hsafe world' hrely hinv
    exact ⟨hlegit, fun choice hinv' => ih _ (hnext choice hinv')⟩

theorem outcome {post : World → Except δ (Except ε α) → Prop}
    (hsafe : Safe serve contract program world fun world outcome => post world (.ok outcome)) :
    Safe serve contract (program.outcome (δ := δ)) world post := by
  induction program generalizing world with
  | ret value => exact hsafe
  | raise error => exact hsafe
  | ask request resume ih =>
    intro world' hrely hinv
    obtain ⟨hlegit, hnext⟩ := hsafe world' hrely hinv
    exact ⟨hlegit, fun choice hinv' => ih _ (hnext choice hinv')⟩

/-- A program whose every request is legitimate whenever it is served is safe. -/
theorem of_only {asks : Req → Prop} (honly : program.Only asks)
    (hlegit : ∀ world request, contract.inv world → asks request → contract.legit world request) :
    Safe serve contract program world fun _ _ => True := by
  induction program generalizing world with
  | ret value => trivial
  | raise error => trivial
  | ask request next ih =>
    exact fun world' _ hinv =>
      ⟨hlegit world' request hinv honly.1, fun choice _ => ih _ (honly.2 _)⟩

/-- What a program asks for may be put in its contract. -/
theorem only {asks : Req → Prop} (hsafe : Safe serve contract program world post)
    (honly : program.Only asks) :
    Safe serve ⟨contract.inv, contract.rely, fun world request =>
      asks request ∧ contract.legit world request⟩ program world post := by
  induction program generalizing world with
  | ret value => exact hsafe
  | raise error => exact hsafe
  | ask request next ih =>
    intro world' hrely hinv
    obtain ⟨hlegit, hnext⟩ := hsafe world' hrely hinv
    exact ⟨⟨honly.1, hlegit⟩, fun choice hinv' => ih _ (hnext choice hinv') (honly.2 _)⟩

/-- A contract may rely on more, and promise less, than the one the program was checked against. -/
theorem weaken (hsafe : Safe serve contract program world post) (weaker : Contract World Req)
    (hinv : ∀ world, weaker.inv world → contract.inv world)
    (hrely : ∀ world world', weaker.rely world world' → contract.rely world world')
    (hlegit : ∀ world request, weaker.inv world → contract.legit world request →
      weaker.legit world request) :
    Safe serve weaker program world post := by
  induction program generalizing world with
  | ret value => exact hsafe
  | raise error => exact hsafe
  | ask request resume ih =>
    intro world' hrelyw hinvw
    obtain ⟨hreq, hnext⟩ := hsafe world' (hrely _ _ hrelyw) (hinv _ hinvw)
    exact ⟨hlegit _ _ hinvw hreq, fun choice hinv' => ih _ (hnext choice (hinv _ hinv'))⟩

/-- A relation that the others' steps and the task's own legitimate requests both stay within
holds between the world a program starts in and the one it ends in. -/
theorem within (hsafe : Safe serve contract program world post) (evolves : World → World → Prop)
    (hrefl : ∀ world, evolves world world)
    (htrans : ∀ a b c, evolves a b → evolves b c → evolves a c)
    (hrely : ∀ world world', contract.rely world world' → evolves world world')
    (hserve : ∀ choice world request, contract.inv world → contract.legit world request →
      contract.inv (serve choice world request).2 → evolves world (serve choice world request).2)
    (hinv : contract.inv world) :
    Safe serve contract program world fun world' outcome =>
      evolves world world' ∧ contract.inv world' ∧ post world' outcome := by
  induction program generalizing world with
  | ret value => exact ⟨hrefl world, hinv, hsafe⟩
  | raise error => exact ⟨hrefl world, hinv, hsafe⟩
  | ask request resume ih =>
    intro world' hrelyw hinvw
    obtain ⟨hreq, hnext⟩ := hsafe world' hrelyw hinvw
    refine ⟨hreq, fun choice hinv' => ?_⟩
    refine (ih _ (hnext choice hinv') hinv').mono ?_
    rintro world'' outcome ⟨hevolves, hinv'', hpost⟩
    refine ⟨?_, hinv'', hpost⟩
    exact htrans _ _ _ (htrans _ _ _ (hrely _ _ hrelyw) (hserve choice _ _ hinvw hreq hinv')) hevolves

/-- What a program proves survives what its contract lets the others do. -/
theorem shift {world' : World} (hsafe : Safe serve contract program world post)
    (htrans : ∀ a b c, contract.rely a b → contract.rely b c → contract.rely a c)
    (hstable : ∀ a b outcome, contract.rely a b → contract.inv b → post a outcome → post b outcome)
    (hrely : contract.rely world world') (hinv : contract.inv world') :
    Safe serve contract program world' post := by
  cases program with
  | ret value => exact hstable _ _ _ hrely hinv hsafe
  | raise error => exact hstable _ _ _ hrely hinv hsafe
  | ask request next =>
    intro world'' hrely' hinv'
    exact hsafe world'' (htrans _ _ _ hrely hrely') hinv'

/-- Threads of one task, interleaved in any order. Each thread `i` is checked against a contract of
its own, whose rely covers the legitimate requests of its siblings. -/
theorem weave (schedule : List Nat) {inv : World → Prop} {rely : World → World → Prop}
    {legit : World → Req → Prop}
    {rely' : Nat → World → World → Prop} {legit' : Nat → World → Req → Prop}
    {goal : Nat → World → Except ε α → Prop}
    (hrely : ∀ i a b, rely a b → rely' i a b)
    (hlegit : ∀ i a request, inv a → legit' i a request → legit a request)
    (htrans : ∀ i a b c, rely' i a b → rely' i b c → rely' i a c)
    (hsibling : ∀ i j choice a request, i ≠ j → inv a → legit' j a request →
      inv (serve choice a request).2 → rely' i a (serve choice a request).2)
    (hstable : ∀ i a b outcome, rely' i a b → inv b → goal i a outcome → goal i b outcome)
    {threads : List (Prog Req Reply ε α)} {world : World}
    (hthreads : ∀ i program, threads[i]? = some program →
      Safe serve ⟨inv, rely' i, legit' i⟩ program world (goal i)) :
    Safe serve ⟨inv, rely, legit⟩ (Prog.weave (δ := δ) schedule threads) world
      (onOk fun world' left => left.length = threads.length ∧
        ∀ i program, left[i]? = some program →
          Safe serve ⟨inv, rely' i, legit' i⟩ program world' (goal i)) := by
  induction schedule generalizing threads world with
  | nil => exact ⟨rfl, hthreads⟩
  | cons thread schedule ih =>
    unfold Prog.weave
    split
    next request resume hthread =>
      intro world' hrelyw hinvw
      have hhere : ∀ i program, threads[i]? = some program →
          Safe serve ⟨inv, rely' i, legit' i⟩ program world' (goal i) := fun i program hi =>
        (hthreads i program hi).shift (htrans i) (hstable i) (hrely i _ _ hrelyw) hinvw
      obtain ⟨hreq, hnext⟩ := hthreads thread _ hthread world' (hrely thread _ _ hrelyw) hinvw
      refine ⟨hlegit thread _ _ hinvw hreq, fun choice hinv' => ?_⟩
      refine (ih fun i program hi => ?_).mono ?_
      rotate_left
      · rintro world'' (error | left) hpost
        · trivial
        · simpa using hpost
      · by_cases hsame : thread = i
        · subst hsame
          have hlt : thread < threads.length := (List.getElem?_eq_some_iff.mp hthread).1
          rw [List.getElem?_set_self hlt, Option.some.injEq] at hi
          exact hi ▸ hnext choice hinv'
        · rw [List.getElem?_set_ne hsame] at hi
          exact (hhere i program hi).shift (htrans i) (hstable i)
            (hsibling i thread choice _ _ (Ne.symm hsame) hinvw hreq hinv') hinv'
    next => exact ih hthreads

/-- Threads finished one after the other, each while the others wait. -/
theorem sequence {inv : World → Prop} {rely : World → World → Prop}
    {rely' : Nat → World → World → Prop} {legit' : Nat → World → Req → Prop}
    {goal : Nat → World → Except ε α → Prop}
    (hrely : ∀ i a b, rely a b → rely' i a b)
    (hrefl : ∀ i a, rely' i a a)
    (htrans : ∀ i a b c, rely' i a b → rely' i b c → rely' i a c)
    (hsibling : ∀ i j choice a request, i ≠ j → inv a → legit' j a request →
      inv (serve choice a request).2 → rely' i a (serve choice a request).2)
    (hstable : ∀ i a b outcome, rely' i a b → inv b → goal i a outcome → goal i b outcome)
    {threads : List (Prog Req Reply ε α)} {world : World} (hinv : inv world)
    (hthreads : ∀ i program, threads[i]? = some program →
      Safe serve ⟨inv, rely' i, legit' i⟩ program world (goal i)) :
    Safe serve ⟨inv, rely, fun a request => ∃ i, legit' i a request⟩ (Prog.sequence threads) world
      (onOk fun world' values => values.length = threads.length ∧
        ∀ i value, values[i]? = some value → goal i world' (.ok value)) := by
  induction threads generalizing rely' legit' goal world with
  | nil => exact ⟨rfl, fun i value hvalue => by simp at hvalue⟩
  | cons program threads ih =>
    have hstart : Safe serve ⟨inv, rely, legit' 0⟩ program world (goal 0) :=
      (hthreads 0 program rfl).weaken _ (fun _ h => h) (hrely 0) fun _ _ _ h => h
    have hfirst := hstart.within (fun a b => ∀ i, rely' (i + 1) a b)
      (fun a i => hrefl _ a) (fun a b c hab hbc i => htrans _ _ _ _ (hab i) (hbc i))
      (fun a b hab i => hrely _ _ _ hab)
      (fun choice a request hinva hlegit hinvb i =>
        hsibling _ 0 choice a request (by omega) hinva hlegit hinvb) hinv
    refine Safe.bind (Safe.mono (hfirst.weaken _ (fun _ h => h) (fun _ _ h => h)
      fun _ _ _ h => ⟨0, h⟩) ?_)
    rintro world' (error | value) ⟨hrest, hinv', hgoal⟩
    · trivial
    -- The threads that waited are still safe; while they run, the first one's goal stands.
    have hafter : Safe serve ⟨inv, rely, fun a request => ∃ i, legit' (i + 1) a request⟩
        (Prog.sequence threads) world' (onOk fun world' values => values.length = threads.length ∧
          ∀ i value, values[i]? = some value → goal (i + 1) world' (.ok value)) :=
      ih (fun i => hrely _) (fun i => hrefl _) (fun i => htrans _)
        (fun i j choice a request hne => hsibling _ _ choice a request (by omega))
        (fun i => hstable _) hinv' fun i program' hi =>
          (hthreads (i + 1) program' hi).shift (htrans _) (hstable _) (hrest i) hinv'
    have hkept := hafter.within (rely' 0) (hrefl 0) (htrans 0) (hrely 0)
      (fun choice a request hinva hlegit hinvb => by
        obtain ⟨j, hlegit⟩ := hlegit
        exact hsibling 0 (j + 1) choice a request (by omega) hinva hlegit hinvb) hinv'
    refine Safe.bind (Safe.mono (hkept.weaken _ (fun _ h => h) (fun _ _ h => h)
      fun _ _ _ ⟨j, h⟩ => ⟨j + 1, h⟩) ?_)
    rintro world'' (error | values) ⟨hmoved, hinv'', hpost⟩
    · trivial
    obtain ⟨hlength, hgoals⟩ := hpost
    refine ⟨by simp [hlength], fun i value' hvalue => ?_⟩
    cases i with
    | zero =>
      obtain rfl : value = value' := by simpa using hvalue
      exact hstable 0 _ _ _ hmoved hinv'' hgoal
    | succ i => exact hgoals i value' (by simpa using hvalue)

/-- Threads interleaved in any order and joined: each has reached its goal. -/
theorem join {inv : World → Prop} {rely : World → World → Prop} {legit : World → Req → Prop}
    {rely' : Nat → World → World → Prop} {legit' : Nat → World → Req → Prop}
    {goal : Nat → World → Except ε α → Prop}
    (hrely : ∀ i a b, rely a b → rely' i a b)
    (hlegit : ∀ i a request, inv a → legit' i a request → legit a request)
    (hrefl : ∀ i a, rely' i a a)
    (htrans : ∀ i a b c, rely' i a b → rely' i b c → rely' i a c)
    (hsibling : ∀ i j choice a request, i ≠ j → inv a → legit' j a request →
      inv (serve choice a request).2 → rely' i a (serve choice a request).2)
    (hstable : ∀ i a b outcome, rely' i a b → inv b → goal i a outcome → goal i b outcome)
    (schedule : List Nat) {threads : List (Prog Req Reply ε α)} {world : World} (hinv : inv world)
    (hthreads : ∀ i program, threads[i]? = some program →
      Safe serve ⟨inv, rely' i, legit' i⟩ program world (goal i)) :
    Safe serve ⟨inv, rely, legit⟩ (Prog.join schedule threads) world
      (onOk fun world' values => values.length = threads.length ∧
        ∀ i value, values[i]? = some value → goal i world' (.ok value)) := by
  have hwoven := (Safe.weave (δ := ε) schedule hrely hlegit htrans hsibling hstable
    hthreads).within (fun _ _ => True) (fun _ => trivial) (fun _ _ _ _ _ => trivial)
    (fun _ _ _ => trivial) (fun _ _ _ _ _ _ => trivial) hinv
  refine Safe.bind (Safe.mono hwoven ?_)
  rintro world' (error | left) ⟨-, hinv', hpost⟩
  · trivial
  obtain ⟨hlength, hleft⟩ := hpost
  dsimp only
  split
  · trivial
  refine Safe.mono ((Safe.sequence hrely hrefl htrans hsibling hstable hinv' hleft).weaken _
    (fun _ h => h) (fun _ _ h => h) fun a request hinva hlegit' => ?_) ?_
  · obtain ⟨i, hlegit'⟩ := hlegit'
    exact hlegit i a request hinva hlegit'
  · rintro world'' (error | values) hvalues
    · trivial
    · exact ⟨hvalues.1.trans hlength, hvalues.2⟩

end Safe

end Interleaving
