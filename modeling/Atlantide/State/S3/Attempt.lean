import Atlantide.State.S3.Protocol

/-! # One attempt at a read, as the history shows it

An attempt starts when its task opens the snapshot. What the task saw since, and when, is read off
the history: `lastSince task seen` is the history before the task's last moment of a kind since it
opened the snapshot, so it stays as it is while other tasks act. -/

namespace Atlantide

def Event.opens : Event → Bool
  | .opened _ => true
  | _ => false

/-- The event is a read of the item's head. -/
def Event.reads (item : Item) : Event → Bool
  | .headRead item' _ => item' = item
  | _ => false

/-- The event is a page of a listing that would show the key. -/
def Event.lists (key : EntryKey) : Event → Bool
  | .listed after upto => pageCovers after upto key
  | _ => false

namespace History

variable {history more past : History} {task : Tid} {seen : Event → Bool}

/-- The history before the task last opened the snapshot. -/
def opening (task : Tid) : History → Option History
  | [] => none
  | moment :: past =>
    if moment.task = task ∧ moment.event.opens then some past else opening task past

/-- The history before the task's last moment of the kind since it opened the snapshot. -/
def lastSince (task : Tid) (seen : Event → Bool) : History → Option History
  | [] => none
  | moment :: past =>
    if moment.task = task then
      if moment.event.opens then none
      else if seen moment.event then some past
      else lastSince task seen past
    else lastSince task seen past

attribute [local simp] opening lastSince

theorem opening_append (h : ∀ moment ∈ more, moment.task = task → moment.event.opens = false) :
    opening task (more ++ history) = opening task history := by
  induction more with
  | nil => rfl
  | cons moment more ih =>
    rw [List.cons_append, opening, if_neg, ih fun m hmem => h m (List.mem_cons_of_mem _ hmem)]
    rintro ⟨htask, hopens⟩
    rw [h moment (List.mem_cons_self ..) htask] at hopens
    cases hopens

theorem lastSince_append (h : ∀ moment ∈ more, moment.task = task →
      moment.event.opens = false ∧ seen moment.event = false) :
    lastSince task seen (more ++ history) = lastSince task seen history := by
  induction more with
  | nil => rfl
  | cons moment more ih =>
    have hrest := ih fun m hmem => h m (List.mem_cons_of_mem _ hmem)
    rw [List.cons_append, lastSince]
    split
    next htask =>
      obtain ⟨hopens, hseen⟩ := h moment (List.mem_cons_self ..) htask
      simp only [hopens, hseen, Bool.false_eq_true, ↓reduceIte]
      exact hrest
    next => exact hrest

theorem opening_cons_opens {moment : Moment} (htask : moment.task = task)
    (hopens : moment.event.opens = true) : opening task (moment :: past) = some past := by
  rw [opening, if_pos ⟨htask, hopens⟩]

theorem lastSince_cons_opens {moment : Moment} (htask : moment.task = task)
    (hopens : moment.event.opens = true) : lastSince task seen (moment :: past) = none := by
  rw [lastSince, if_pos htask, if_pos hopens]

theorem lastSince_cons_seen {moment : Moment} (htask : moment.task = task)
    (hopens : moment.event.opens = false) (hseen : seen moment.event = true) :
    lastSince task seen (moment :: past) = some past := by
  rw [lastSince, if_pos htask, hopens, if_neg Bool.false_ne_true, if_pos hseen]

theorem opening_suffix {start : History} (hopening : opening task history = some start) :
    start <:+ history := by
  induction history with
  | nil => cases hopening
  | cons moment before ih =>
    rw [opening] at hopening
    split at hopening
    next =>
      cases hopening
      exact List.suffix_cons _ _
    next => exact (ih hopening).trans (List.suffix_cons _ _)

/-- What was seen was seen after the snapshot was opened. -/
theorem opening_suffix_lastSince {start : History} (hseen : lastSince task seen history = some past)
    (hopening : opening task history = some start) : start <:+ past := by
  induction history with
  | nil => cases hseen
  | cons moment before ih =>
    rw [lastSince] at hseen
    rw [opening] at hopening
    split at hseen
    next htask =>
      split at hseen
      next => cases hseen
      next hopens =>
        rw [if_neg fun h => hopens h.2] at hopening
        split at hseen
        next =>
          cases hseen
          exact opening_suffix hopening
        next => exact ih hseen hopening
    next htask =>
      rw [if_neg fun h => htask h.1] at hopening
      exact ih hseen hopening

theorem lastSince_suffix (hseen : lastSince task seen history = some past) :
    ∃ moment, moment :: past <:+ history ∧ moment.task = task ∧ seen moment.event = true := by
  induction history with
  | nil => cases hseen
  | cons moment before ih =>
    have hlater : lastSince task seen before = some past →
        ∃ moment', moment' :: past <:+ moment :: before ∧ moment'.task = task ∧
          seen moment'.event = true := by
      intro h
      obtain ⟨moment', hsuffix, hmoment'⟩ := ih h
      exact ⟨moment', hsuffix.trans (List.suffix_cons _ _), hmoment'⟩
    rw [lastSince] at hseen
    split at hseen
    next htask =>
      split at hseen
      next => cases hseen
      next =>
        split at hseen
        next hhere =>
          cases hseen
          exact ⟨moment, List.suffix_refl _, htask, hhere⟩
        next => exact hlater hseen
    next => exact hlater hseen

theorem lastRead_of_lastSince {item : Item}
    (hseen : lastSince task (Event.reads item) history = some past) :
    lastRead task item history = some past.length := by
  induction history with
  | nil => cases hseen
  | cons moment before ih =>
    rw [lastSince] at hseen
    rw [lastRead]
    split at hseen
    next htask =>
      cases hevent : moment.event <;> rw [hevent] at hseen <;>
        simp only [Event.opens, Event.reads, Bool.false_eq_true, ↓reduceIte, decide_eq_true_eq]
          at hseen ⊢
      case opened => cases hseen
      case headRead item' head =>
        split at hseen
        next hitem =>
          cases hseen
          rw [if_pos ⟨htask, hitem⟩]
        next hitem =>
          rw [if_neg fun h => hitem h.2]
          exact ih hseen
      all_goals exact ih hseen
    next htask =>
      split
      · rw [if_neg fun h => htask h.1]
        exact ih hseen
      · exact ih hseen

end History

open History

/-- What happened between the two worlds, the task's own moments being such as `may` allows. -/
def Keeps (task : Tid) (may : Event → Prop) (world world' : World) : Prop :=
  ∃ more, Grows world world' more ∧ ∀ moment ∈ more, moment.task = task → may moment.event

namespace Keeps

variable {task : Tid} {may may' : Event → Prop} {world world' world'' : World}

theorem refl (world : World) : Keeps task may world world := ⟨[], .refl world, fun _ h => nomatch h⟩

theorem trans (hfirst : Keeps task may world world') (hthen : Keeps task may world' world'') :
    Keeps task may world world'' := by
  obtain ⟨more, hgrows, hmore⟩ := hfirst
  obtain ⟨more', hgrows', hmore'⟩ := hthen
  exact ⟨more' ++ more, hgrows.trans hgrows', fun moment hmem =>
    (List.mem_append.mp hmem).elim (hmore' moment) (hmore moment)⟩

theorem evolves (hkeeps : Keeps task may world world') : Evolves world world' :=
  let ⟨more, hgrows, _⟩ := hkeeps
  ⟨more, hgrows⟩

theorem of_rely (hrely : Rely task world world') : Keeps task may world world' := by
  obtain ⟨⟨more, hgrows, htask⟩, -⟩ := hrely
  exact ⟨more, hgrows, fun moment hmem h => absurd h (htask moment hmem)⟩

theorem opening_eq (hkeeps : Keeps task may world world')
    (hmay : ∀ event, may event → event.opens = false) :
    opening task world'.history = opening task world.history := by
  obtain ⟨more, hgrows, hmore⟩ := hkeeps
  rw [hgrows.history]
  exact opening_append fun moment hmem htask => hmay _ (hmore moment hmem htask)

theorem lastSince_eq (hkeeps : Keeps task may world world') {seen : Event → Bool}
    (hmay : ∀ event, may event → event.opens = false ∧ seen event = false) :
    lastSince task seen world'.history = lastSince task seen world.history := by
  obtain ⟨more, hgrows, hmore⟩ := hkeeps
  rw [hgrows.history]
  exact lastSince_append fun moment hmem htask => hmay _ (hmore moment hmem htask)

end Keeps

/-- The head is the item's at the time of `past`. -/
structure HeadAt (head : Option Head) (item : Item) (past : History) : Prop where
  seq : head.bind Head.seq = (newest item past).map HeadUpdate.seq
  ref : head.bind Head.ref = (newest item past).map HeadUpdate.ref

/-- An entry that a head names was committed. -/
theorem HeadAt.committed {head : Option Head} {item : Item} {past : History} {ref : EntryKey}
    (hat : HeadAt head item past) (href : head.bind Head.ref = some ref) :
    ∃ update, Committed past update ∧ update.ref = ref := by
  rw [hat.ref, Option.map_eq_some_iff] at href
  obtain ⟨update, hnewest, rfl⟩ := href
  exact ⟨update, (committed_of_newest hnewest).1, rfl⟩

theorem JournalInv.headAt {store : Store} {history : History} (hinv : JournalInv store history)
    (item : Item) : HeadAt store.heads[item]? item history := by
  have hhead : store.head item = store.heads[item]?.getD {} := by
    rw [Store.head, Std.ExtTreeMap.getD_eq_getD_getElem?]
  constructor
  · rw [← hinv.head_seq, hhead]
    cases store.heads[item]? <;> rfl
  · rw [← hinv.head_ref, hhead]
    cases store.heads[item]? <;> rfl

end Atlantide
