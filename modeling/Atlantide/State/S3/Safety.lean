import Atlantide.State.S3.Attempt
import Atlantide.State.S3.Backend
import Atlantide.State.S3.ProtocolStep

/-! # Rules for the backends' programs

A task of the protocol relies on `Rely`; a thread of a task, beside siblings, relies on less: its
siblings add moments of the task itself, of the kinds `may` allows. -/

namespace Atlantide

open Interleaving History

/-- A task of the protocol. -/
def keeping (tid : Tid) : Contract World Request where
  inv := WorldInv
  rely := Rely tid
  legit := Legit tid

/-- A thread that asks only for what `asks` allows, beside siblings that leave only what `may`
allows. -/
def beside (tid : Tid) (may : Event → Prop) (asks : Request → Prop) : Contract World Request where
  inv := WorldInv
  rely := Keeps tid may
  legit world request := asks request ∧ Legit tid world request

abbrev SafeTask {α : Type} (tid : Tid) (program : Backend α) (world : World)
    (post : World → Except Error α → Prop) : Prop :=
  Safe (World.serve tid) (keeping tid) program world post

abbrev SafeThread {α : Type} (tid : Tid) (may : Event → Prop) (asks : Request → Prop)
    (program : Backend α) (world : World) (post : World → Except Error α → Prop) : Prop :=
  Safe (World.serve tid) (beside tid may asks) program world post

variable {α β : Type} {tid : Tid} {world : World} {asks : Request → Prop} {may : Event → Prop}

theorem SafeThread.task {program : Backend α} {post : World → Except Error α → Prop}
    (h : SafeThread tid may asks program world post) : SafeTask tid program world post :=
  h.weaken _ (fun _ h => h) (fun _ _ h => .of_rely h) fun _ _ _ h => h.2

/-! ## What a program asks for -/

theorem only_send {request : AwsRequest} (h : asks (.aws request)) : (send request).Only asks := by
  unfold send
  generalize limits.maxAttempts = attempts
  induction attempts with
  | zero => trivial
  | succ attempts ih =>
    refine ⟨h, fun reply => ?_⟩
    cases reply with
    | none => exact ih
    | some payload => trivial

theorem only_memory {op : MemoryOp} (h : asks (.memory op)) : (memory op).Only asks :=
  ⟨h, fun _ => trivial⟩

theorem only_parallel {T R : Type} {work : T → Backend R} {items : List T}
    (hschedule : asks .schedule) (hwork : ∀ item ∈ items, (work item).Only asks) :
    (parallel work items).Only asks := by
  have hthreads : ∀ program ∈ items.map work, program.Only asks := by
    intro program hmem
    obtain ⟨item, hitem, rfl⟩ := List.mem_map.mp hmem
    exact hwork item hitem
  unfold parallel
  split
  · exact Prog.Only.sequence hthreads
  · exact ⟨hschedule, fun schedule => Prog.Only.join hthreads⟩

theorem only_transact {items : List TransactItem} (h : asks (.aws (.transact items)))
    (budget : Nat) : (transact items budget).Only asks := by
  induction budget with
  | zero => trivial
  | succ budget ih =>
    refine ⟨h, fun reply => ?_⟩
    match reply with
    | none => trivial
    | some .applied => trivial
    | some (.refused _) => trivial
    | some .transient => exact ih

/-! ## Frames -/

/-- Between a task's start and its end there are only moments of its own footprint. -/
theorem SafeTask.keeps {program : Backend α} {post : World → Except Error α → Prop}
    (hsafe : SafeTask tid program world post) (honly : program.Only asks)
    (hasks : ∀ request event, asks request → request.Leaves event → may event)
    (hinv : WorldInv world) :
    SafeTask tid program world fun world' outcome =>
      Keeps tid may world world' ∧ WorldInv world' ∧ post world' outcome := by
  refine Safe.weaken (Safe.within (Safe.only hsafe honly) (Keeps tid may) Keeps.refl
    (fun _ _ _ => Keeps.trans) (fun _ _ => Keeps.of_rely) ?_ hinv) _
    (fun _ h => h) (fun _ _ h => h) fun _ _ _ h => h.2
  rintro choice world request hinv' ⟨hrequest, hlegit⟩ -
  obtain ⟨-, more, hgrows, hmore⟩ := World.serve_keeps hinv' hlegit choice
  exact ⟨more, hgrows, fun moment hmem _ => hasks request _ hrequest (hmore moment hmem).2⟩

theorem SafeTask.evolves {program : Backend α} {post : World → Except Error α → Prop}
    (hsafe : SafeTask tid program world post) (hinv : WorldInv world) :
    SafeTask tid program world fun world' outcome =>
      Evolves world world' ∧ WorldInv world' ∧ post world' outcome := by
  have hkeeps : SafeTask tid program world fun world' outcome =>
      Keeps tid (fun _ => True) world world' ∧ WorldInv world' ∧ post world' outcome :=
    hsafe.keeps (.any program) (fun _ _ _ _ => trivial) hinv
  exact hkeeps.mono fun _ _ h => ⟨h.1.evolves, h.2⟩

/-- A task goes on from where its first part ended. -/
theorem SafeTask.andThen {program : Backend α} {next : α → Backend β}
    {middle : World → Except Error α → Prop} {post : World → Except Error β → Prop}
    (hsafe : SafeTask tid program world middle) (hinv : WorldInv world)
    (hnext : ∀ world' value, Evolves world world' → WorldInv world' → middle world' (.ok value) →
      SafeTask tid (next value) world' post)
    (herror : ∀ world' error, post world' (.error error)) :
    SafeTask tid (program.bind next) world post := by
  refine Safe.bind (Safe.mono (hsafe.evolves hinv) ?_)
  rintro world' (error | value) ⟨hevolves, hinv', hmiddle⟩
  · exact herror world' error
  · exact hnext world' value hevolves hinv' hmiddle

theorem SafeTask.ite {condition : Prop} [Decidable condition] {program other : Backend α}
    {post : World → Except Error α → Prop}
    (hthen : condition → SafeTask tid program world post)
    (helse : ¬condition → SafeTask tid other world post) :
    SafeTask tid (if condition then program else other) world post := by
  split
  next h => exact hthen h
  next h => exact helse h

/-- A task of requests that are always legitimate. -/
theorem SafeTask.of_only {program : Backend α} (honly : program.Only asks)
    (hlegit : ∀ world request, WorldInv world → asks request → Legit tid world request) :
    SafeTask tid program world fun _ _ => True :=
  Safe.of_only honly hlegit

/-- A step of a sibling, as a thread sees it. -/
theorem Keeps.of_serve (request : Request) (choice : Choice) (hinv : WorldInv world)
    (hlegit : Legit tid world request) (hmay : ∀ event, request.Leaves event → may event) :
    Keeps tid may world (world.serve tid choice request).2 := by
  obtain ⟨-, more, hgrows, hmore⟩ := World.serve_keeps hinv hlegit choice
  exact ⟨more, hgrows, fun moment hmem _ => hmay _ (hmore moment hmem).2⟩

/-! ## Requests -/

/-- A request the SDK repeats: whenever it is served in a world where `known` holds, it is legitimate,
`known` holds after it, and its answer, should one arrive, is what the program goes on with. -/
theorem safe_send_any {contract : Contract World Request} {request : AwsRequest}
    (known : World → Prop) {post : World → Except Error request.Payload → Prop}
    (hstable : ∀ a b, known a → contract.rely a b → contract.inv b → known b)
    (hlegit : ∀ a, known a → contract.inv a → contract.legit a (.aws request))
    (hafter : ∀ a, known a → contract.inv a → contract.inv (a.after tid request) →
      known (a.after tid request) ∧
        post (a.after tid request) (.ok (a.store.serve request).1) ∧
        ∀ answer, World.afterLost request (a.store.serve request).1 = some answer →
          post (a.after tid request) (.ok answer))
    (hcancelled : ∀ a answer, World.afterTransient request = some answer → post a (.ok answer))
    (herror : ∀ a, known a → post a (.error .service))
    (hknown : known world) :
    Safe (World.serve tid) contract (send request) world post := by
  unfold send
  generalize limits.maxAttempts = attempts
  induction attempts generalizing world with
  | zero => exact herror world hknown
  | succ attempts ih =>
    intro world' hrely hinv
    have hknown' := hstable _ _ hknown hrely hinv
    refine ⟨hlegit world' hknown' hinv, fun choice hinv' => ?_⟩
    cases hfate : choice.fate with
    | answered =>
      simp only [World.serve, World.serveAws, hfate] at hinv' ⊢
      exact (hafter world' hknown' hinv hinv').2.1
    | lost =>
      simp only [World.serve, World.serveAws, hfate] at hinv' ⊢
      cases hlost : World.afterLost request (world'.store.serve request).1 with
      | none => exact ih (hafter world' hknown' hinv hinv').1
      | some answer => exact (hafter world' hknown' hinv hinv').2.2 answer hlost
    | failed =>
      simp only [World.serve, World.serveAws, hfate] at hinv' ⊢
      exact ih hknown'
    | transient =>
      simp only [World.serve, World.serveAws, hfate] at hinv' ⊢
      cases hcancel : World.afterTransient request with
      | none => exact ih hknown'
      | some answer => exact hcancelled world' answer hcancel

/-- The request's answer arrives only if it was answered. -/
def AwsRequest.Plain (request : AwsRequest) : Prop :=
  (∀ payload, World.afterLost request payload = none) ∧ World.afterTransient request = none

theorem safe_send {contract : Contract World Request} {request : AwsRequest}
    (known : World → Prop) {post : World → Except Error request.Payload → Prop}
    (hplain : request.Plain)
    (hstable : ∀ a b, known a → contract.rely a b → contract.inv b → known b)
    (hlegit : ∀ a, known a → contract.inv a → contract.legit a (.aws request))
    (hafter : ∀ a, known a → contract.inv a → contract.inv (a.after tid request) →
      known (a.after tid request) ∧
        post (a.after tid request) (.ok (a.store.serve request).1))
    (herror : ∀ a, known a → post a (.error .service))
    (hknown : known world) :
    Safe (World.serve tid) contract (send request) world post := by
  refine safe_send_any known hstable hlegit (fun a hknown' hinv hinv' => ?_) ?_ herror hknown
  · obtain ⟨hstays, hpost⟩ := hafter a hknown' hinv hinv'
    refine ⟨hstays, hpost, fun answer hlost => ?_⟩
    rw [hplain.1] at hlost
    cases hlost
  · intro a answer hcancelled
    rw [hplain.2] at hcancelled
    cases hcancelled

/-- Work fanned out over items: each item's thread is checked beside the others. -/
theorem safe_parallel {T R : Type} {work : T → Backend R} {items : List T}
    (asks : T → Request → Prop) (may : T → Event → Prop) (goal : T → World → Except Error R → Prop)
    (hsibling : ∀ (i j : Nat) (item other : T), i ≠ j → items[i]? = some item → items[j]? = some other →
      ∀ request event, asks other request → request.Leaves event → may item event)
    (hstable : ∀ item a b outcome, Keeps tid (may item) a b → WorldInv b → goal item a outcome →
      goal item b outcome)
    (hinv : WorldInv world)
    (hwork : ∀ item ∈ items, ∀ world', Rely tid world world' → WorldInv world' →
      SafeThread tid (may item) (asks item) (work item) world' (goal item)) :
    SafeTask tid (parallel work items) world (onOk fun world' values =>
      values.length = items.length ∧ ∀ (i : Nat) (item : T) (value : R), items[i]? = some item →
        values[i]? = some value → goal item world' (.ok value)) := by
  let rely (i : Nat) (a b : World) : Prop := ∀ item, items[i]? = some item → Keeps tid (may item) a b
  let legit (i : Nat) (a : World) (request : Request) : Prop :=
    ∃ item, items[i]? = some item ∧ asks item request ∧ Legit tid a request
  let target (i : Nat) (a : World) (outcome : Except Error R) : Prop :=
    ∀ item, items[i]? = some item → goal item a outcome
  have hrely : ∀ i a b, Rely tid a b → rely i a b := fun i a b h item _ => .of_rely h
  have hlegit : ∀ i a request, WorldInv a → legit i a request → Legit tid a request :=
    fun i a request _ ⟨_, _, _, h⟩ => h
  have hrefl : ∀ i a, rely i a a := fun i a item _ => .refl a
  have htrans : ∀ i a b c, rely i a b → rely i b c → rely i a c :=
    fun i a b c hab hbc item hitem => (hab item hitem).trans (hbc item hitem)
  have hsibling' : ∀ i j choice a request, i ≠ j → WorldInv a → legit j a request →
      WorldInv (a.serve tid choice request).2 → rely i a (a.serve tid choice request).2 := by
    rintro i j choice a request hne hinva ⟨other, hother, hasks, hrequest⟩ - item hitem
    exact .of_serve _ _ hinva hrequest fun event =>
      hsibling i j item other hne hitem hother request event hasks
  have hstable' : ∀ i a b outcome, rely i a b → WorldInv b → target i a outcome →
      target i b outcome := fun i a b outcome hab hinvb h item hitem =>
    hstable item a b outcome (hab item hitem) hinvb (h item hitem)
  have hthreads : ∀ world', Rely tid world world' → WorldInv world' →
      ∀ i program, (items.map work)[i]? = some program →
        Safe (World.serve tid) ⟨WorldInv, rely i, legit i⟩ program world' (target i) := by
    intro world' hworld hinv' i program hprogram
    rw [List.getElem?_map, Option.map_eq_some_iff] at hprogram
    obtain ⟨item, hitem, rfl⟩ := hprogram
    have hitem_only : ∀ other, items[i]? = some other → other = item := fun other hother =>
      Option.some.inj (hother.symm.trans hitem)
    refine ((hwork item (List.mem_of_getElem? hitem) world' hworld hinv').weaken
      ⟨WorldInv, rely i, legit i⟩ (fun _ h => h)
      (fun a b h => h item hitem) fun a request _ h => ⟨item, hitem, h⟩).mono ?_
    intro a outcome h other hother
    rw [hitem_only other hother]
    exact h
  have hpost : ∀ (a : World) (outcome : Except Error (List R)),
      onOk (fun world' values => values.length = (items.map work).length ∧
        ∀ i value, values[i]? = some value → target i world' (.ok value)) a outcome →
      onOk (fun world' values => values.length = items.length ∧ ∀ (i : Nat) (item : T) (value : R),
        items[i]? = some item → values[i]? = some value → goal item world' (.ok value))
        a outcome := by
    rintro a (error | values) h
    · trivial
    · exact ⟨h.1.trans (List.length_map _), fun i item value hitem hvalue => h.2 i value hvalue item hitem⟩
  unfold parallel
  split
  · refine (Safe.weaken (Safe.sequence hrely hrefl htrans hsibling' hstable' hinv
      (hthreads world (.refl tid world) hinv)) (keeping tid) (fun _ h => h) (fun _ _ h => h)
      ?_).mono hpost
    rintro a request hinva ⟨i, h⟩
    exact hlegit i a request hinva h
  · intro world' hworld hinv'
    refine ⟨trivial, fun choice _ => ?_⟩
    exact (Safe.join hrely hlegit hrefl htrans hsibling' hstable' _ hinv'
      (hthreads world' hworld hinv')).mono hpost

end Atlantide
