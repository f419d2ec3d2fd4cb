import Atlantide.State.S3.Safety

/-! # What a read of the whole state has seen

A head read sees the item as of the moment it is served, and a page of a listing shows every entry
that was stored by then and is not folded. From these, what an attempt at a read knows when it
ends. -/

namespace Atlantide

open Interleaving History

variable {tid : Tid} {world : World}

/-! ## Heads -/

/-- The task read the item's head, later than `since`, and found `head`. -/
def HeadSeen (tid : Tid) (item : Item) (head : Option Head) (since history : History) : Prop :=
  ∃ past, lastSince tid (Event.reads item) history = some past ∧ since <:+ past ∧
    HeadAt head item past

/-- The request reads the head of one of `items`, if it is one to a store. -/
def AsksHeads (items : List Item) : Request → Prop
  | .aws request => ∃ item ∈ items, request = .getHead item
  | .schedule => True
  | _ => False

theorem leaves_getHead {item : Item} {event : Event}
    (h : (Request.aws (.getHead item)).Leaves event) : ∃ head, event = .headRead item head := by
  obtain ⟨store, hmem⟩ := h
  exact ⟨_, List.mem_singleton.mp hmem⟩

theorem leaves_asksHeads {items : List Item} {request : Request} {event : Event}
    (hasks : AsksHeads items request) (h : request.Leaves event) :
    ∃ item ∈ items, ∃ head, event = .headRead item head := by
  cases request with
  | aws request =>
    obtain ⟨item, hitem, rfl⟩ := hasks
    exact ⟨item, hitem, leaves_getHead h⟩
  | schedule => exact h.elim
  | memory op => exact hasks.elim
  | uuid => exact hasks.elim
  | paging => exact hasks.elim

theorem safe_sendGetHead (item : Item) {since : History} (hsince : since <:+ world.history) :
    SafeThread tid (fun event => event.opens = false ∧ event.reads item = false)
      (fun request => request = .aws (.getHead item)) (send (.getHead item)) world
      (onOk fun world' head => HeadSeen tid item head since world'.history) := by
  refine safe_send (fun a => since <:+ a.history) ⟨fun _ => rfl, rfl⟩ ?_
    (fun _ _ _ => ⟨rfl, trivial⟩) ?_ (fun _ _ => trivial) hsince
  · rintro a b hknown ⟨more, hgrows, -⟩ -
    exact hknown.trans ⟨more, hgrows.history.symm⟩
  · intro a hknown hinv _
    refine ⟨hknown.trans (List.suffix_cons _ _), a.history, ?_, hknown, hinv.journal.headAt item⟩
    exact lastSince_cons_seen rfl rfl (by simp [Event.reads])

theorem HeadSeen.mono {item : Item} {head : Option Head} {since since' history : History}
    (hseen : HeadSeen tid item head since history) (h : since' <:+ since) :
    HeadSeen tid item head since' history := by
  obtain ⟨past, hlast, hsince, hhead⟩ := hseen
  exact ⟨past, hlast, h.trans hsince, hhead⟩

theorem HeadSeen.keeps {item : Item} {head : Option Head} {since : History} {a b : World}
    {may : Event → Prop} (hseen : HeadSeen tid item head since a.history) (hkeeps : Keeps tid may a b)
    (hmay : ∀ event, may event → event.opens = false ∧ event.reads item = false) :
    HeadSeen tid item head since b.history := by
  obtain ⟨past, hlast, hhead⟩ := hseen
  exact ⟨past, (hkeeps.lastSince_eq hmay).trans hlast, hhead⟩

namespace Reads

theorem mem_distinctItems {items : List Item} {item : Item} :
    item ∈ distinctItems items ↔ item ∈ items := by
  rw [distinctItems, Std.ExtTreeSet.mem_toList, Std.ExtTreeSet.mem_ofList, List.contains_iff_mem]

theorem nodup_distinctItems (items : List Item) : (distinctItems items).Nodup := by
  refine (Std.ExtTreeSet.distinct_toList (t := Std.ExtTreeSet.ofList items compare)).imp ?_
  rintro a b hne rfl
  exact hne Std.ReflCmp.compare_self

theorem foundHeads_of_not_mem {items : List Item} {item : Item} (hitem : item ∉ items)
    (found : List (Option Head)) (heads : Dict Item Head) :
    (foundHeads items found heads)[item]? = heads[item]? := by
  induction items generalizing found heads with
  | nil => rfl
  | cons first items ih =>
    cases found with
    | nil => rfl
    | cons head found =>
      rw [List.mem_cons, not_or] at hitem
      refine (ih hitem.2 found _).trans ?_
      cases head with
      | none => rfl
      | some head => simp [Std.ExtTreeMap.getElem?_insert, Ne.symm hitem.1]

theorem foundHeads_of_mem {items : List Item} (hnodup : items.Nodup) {found : List (Option Head)}
    {heads : Dict Item Head} {i : Nat} {item : Item} {head : Option Head}
    (hitem : items[i]? = some item) (hhead : found[i]? = some head) (hnone : heads[item]? = none) :
    (foundHeads items found heads)[item]? = head := by
  induction items generalizing found heads i with
  | nil => cases hitem
  | cons first items ih =>
    rw [List.nodup_cons] at hnodup
    cases found with
    | nil => cases hhead
    | cons first' found =>
      cases i with
      | zero =>
        obtain rfl : first = item := Option.some.inj hitem
        obtain rfl : first' = head := Option.some.inj hhead
        refine (foundHeads_of_not_mem hnodup.1 found _).trans ?_
        cases first' with
        | none => exact hnone
        | some head => simp
      | succ i =>
        refine ih hnodup.2 hitem hhead ?_
        cases first' with
        | none => exact hnone
        | some head =>
          have hne : first ≠ item := by
            rintro rfl
            exact hnodup.1 (List.mem_of_getElem? hitem)
          simpa [Std.ExtTreeMap.getElem?_insert, hne] using hnone

theorem only_readHeads (items : List Item) : (readHeads items).Only (AsksHeads items) :=
  Prog.Only.bind (only_parallel trivial fun item hitem =>
    only_send ⟨item, mem_distinctItems.mp hitem, rfl⟩) fun _ => trivial

theorem safe_readHeads (items : List Item) (hinv : WorldInv world) :
    SafeTask tid (readHeads items) world (onOk fun world' heads =>
      ∀ item, (item ∈ items → HeadSeen tid item heads[item]? world.history world'.history) ∧
        (item ∉ items → heads[item]? = none)) := by
  have hnodup := nodup_distinctItems items
  refine Safe.bind (Safe.mono (safe_parallel (fun item request => request = .aws (.getHead item))
    (fun item event => event.opens = false ∧ event.reads item = false)
    (fun item => onOk fun world' head => HeadSeen tid item head world.history world'.history) ?_ ?_
    hinv fun item _ world' hrely _ => safe_sendGetHead item hrely.evolves.suffix) ?_)
  · rintro i j item other hne hitem hother request event rfl hleaves
    obtain ⟨head, rfl⟩ := leaves_getHead hleaves
    have hdistinct : other ≠ item := by
      rintro rfl
      have hlt := (List.getElem?_eq_some_iff.mp hitem).1
      exact hne ((List.getElem?_inj hlt hnodup).mp (hitem.trans hother.symm))
    exact ⟨rfl, by simp [Event.reads, hdistinct]⟩
  · rintro item a b (error | head) hkeeps hinvb hseen
    · trivial
    · exact hseen.keeps hkeeps fun _ h => h
  rintro world' (error | found) hpost
  · trivial
  obtain ⟨hlength, hgoal⟩ := hpost
  refine fun item => ⟨fun hitem => ?_, fun hitem => ?_⟩
  · obtain ⟨i, hindex⟩ := List.mem_iff_getElem?.mp (mem_distinctItems.mpr hitem)
    obtain ⟨head, hhead⟩ : ∃ head, found[i]? = some head := by
      have hlt := (List.getElem?_eq_some_iff.mp hindex).1
      exact ⟨_, List.getElem?_eq_getElem (by omega)⟩
    have hseen := hgoal i item head hindex hhead
    rwa [← foundHeads_of_mem hnodup hindex hhead Std.ExtTreeMap.getElem?_empty] at hseen
  · exact (foundHeads_of_not_mem (fun h => hitem (mem_distinctItems.mp h)) found ∅).trans Std.ExtTreeMap.getElem?_empty

/-- The entry a head read names was committed. -/
theorem safe_getHead (item : Item) :
    SafeTask tid (getHead item) world (onOk fun world' head =>
      ∀ ref, head.ref = some ref → ∃ update, Committed world'.history update ∧ update.ref = ref) := by
  refine Safe.bind (Safe.mono (safe_sendGetHead item (List.suffix_refl _)).task ?_)
  rintro world' (error | found) hseen
  · trivial
  obtain ⟨past, hlast, -, hat⟩ := hseen
  intro ref href
  cases found with
  | none => cases href
  | some head =>
    obtain ⟨update, hcommitted, hupdate⟩ := hat.committed href
    obtain ⟨moment, ⟨later, hlater⟩, -⟩ := lastSince_suffix hlast
    exact ⟨update, hlater ▸ (hcommitted.append [moment]).append later, hupdate⟩

end Reads

/-! ## Listings -/

/-- The task listed where the key would stand. The listing shows it, had it been stored by then,
unless it is folded. -/
def PageSeen (tid : Tid) (key : EntryKey) (entries : List EntryKey) (world : World) : Prop :=
  ∃ past, lastSince tid (Event.lists key) world.history = some past ∧
    ∀ entry, Stored past key entry → key ∈ entries ∨ key.seq ≤ watermark world.store.doc key.item

def AsksPages : Request → Prop
  | .aws (.listPage _ _) | .paging => True
  | _ => False

def Event.IsPage (event : Event) : Prop := ∃ after upto, event = .listed after upto

theorem leaves_asksPages {request : Request} {event : Event} (hasks : AsksPages request)
    (h : request.Leaves event) : event.IsPage := by
  match request, hasks with
  | .aws (.listPage after upto), _ =>
    obtain ⟨store, hmem⟩ := h
    exact ⟨after, upto, List.mem_singleton.mp hmem⟩
  | .paging, _ => exact h.elim

theorem PageSeen.evolves {key : EntryKey} {entries more : List EntryKey} {a b : World}
    (hseen : PageSeen tid key entries a) (hsub : ∀ key ∈ entries, key ∈ more) (hevolves : Evolves a b)
    (hsame : lastSince tid (Event.lists key) b.history = lastSince tid (Event.lists key) a.history) :
    PageSeen tid key more b := by
  obtain ⟨past, hlast, hshown⟩ := hseen
  obtain ⟨happened, hgrows⟩ := hevolves
  refine ⟨past, hsame.trans hlast, fun entry hstored => (hshown entry hstored).imp (hsub key) ?_⟩
  exact fun hmark => Nat.le_trans hmark (hgrows.marks key.item)

namespace Reads

theorem safe_sendListPage (after upto : Option EntryKey) :
    SafeTask tid (send (.listPage after upto)) world (onOk fun world' page =>
      ∀ key, if pageCovers after upto key then PageSeen tid key page world'
        else lastSince tid (Event.lists key) world'.history =
          lastSince tid (Event.lists key) world.history) := by
  refine safe_send (fun a => ∀ key, pageCovers after upto key = false →
    lastSince tid (Event.lists key) a.history = lastSince tid (Event.lists key) world.history)
    ⟨fun _ => rfl, rfl⟩ ?_ (fun _ _ _ => trivial) ?_ (fun _ _ => trivial) fun _ _ => rfl
  · intro a b hknown hrely _ key hkey
    have hkeeps : Keeps tid (fun _ => False) a b := .of_rely hrely
    rw [hkeeps.lastSince_eq fun _ h => h.elim]
    exact hknown key hkey
  · intro a hknown hinva _
    have hafter : ∀ key, lastSince tid (Event.lists key) (a.after tid (.listPage after upto)).history =
        if pageCovers after upto key then some a.history
        else lastSince tid (Event.lists key) a.history := by
      intro key
      show lastSince tid (Event.lists key) (⟨tid, a.clock tid, .listed after upto⟩ :: a.history) = _
      cases hkey : pageCovers after upto key <;> simp [lastSince, Event.opens, Event.lists, hkey]
    refine ⟨fun key hkey => ?_, fun key => ?_⟩
    · rw [hafter, hkey, if_neg Bool.false_ne_true]
      exact hknown key hkey
    · cases hkey : pageCovers after upto key with
      | false =>
        rw [if_neg Bool.false_ne_true, hafter, hkey, if_neg Bool.false_ne_true]
        exact hknown key hkey
      | true =>
        rw [if_pos rfl]
        refine ⟨a.history, by rw [hafter, hkey, if_pos rfl], fun entry hstored => ?_⟩
        refine (hinva.journal.kept key entry hstored).imp_left fun hentry => ?_
        exact List.mem_filter.mpr ⟨Std.ExtTreeMap.mem_keys.mpr
          (Std.ExtTreeMap.mem_iff_isSome_getElem?.mpr (by rw [hentry]; rfl)), hkey⟩

theorem only_listPages (after : Option EntryKey) (bounds : List EntryKey) :
    (listPages after bounds).Only AsksPages := by
  induction bounds generalizing after with
  | nil => exact only_send trivial
  | cons bound bounds ih =>
    exact Prog.Only.bind (only_send trivial) fun page => Prog.Only.bind (ih _) fun rest => trivial

theorem only_listEntries : listEntries.Only AsksPages :=
  ⟨trivial, fun bounds => only_listPages none bounds⟩

/-- A key past the page's start stands on the page or past its end. -/
theorem pageCovers_split (after : Option EntryKey) (bound key : EntryKey)
    (h : pageCovers after none key = true) :
    pageCovers after (some bound) key = true ∨ pageCovers (some bound) none key = true := by
  simp only [pageCovers, Option.all_none, Bool.and_true, Option.all_some] at h ⊢
  rw [h, Bool.true_and]
  cases hcmp : compare key bound with
  | lt => exact .inl rfl
  | eq => exact .inl rfl
  | gt =>
    rw [Std.OrientedCmp.gt_iff_lt] at hcmp
    exact .inr (by rw [hcmp]; rfl)

theorem safe_listPages (after : Option EntryKey) (bounds : List EntryKey) (hinv : WorldInv world) :
    SafeTask tid (listPages after bounds) world (onOk fun world' entries =>
      ∀ key, PageSeen tid key entries world' ∨ (pageCovers after none key = false ∧
        lastSince tid (Event.lists key) world'.history =
          lastSince tid (Event.lists key) world.history)) := by
  induction bounds generalizing after world with
  | nil =>
    refine (safe_sendListPage after none).mono ?_
    rintro world' (error | page) hpost
    · trivial
    intro key
    have hkey := hpost key
    cases hcovers : pageCovers after none key with
    | true => exact .inl (by rwa [hcovers, if_pos rfl] at hkey)
    | false => exact .inr ⟨rfl, by rwa [hcovers, if_neg Bool.false_ne_true] at hkey⟩
  | cons bound bounds ih =>
    refine Safe.bind (Safe.mono (SafeTask.keeps (safe_sendListPage after (some bound))
      (only_send trivial) (fun _ _ => leaves_asksPages) hinv) ?_)
    rintro world' (error | page) ⟨-, hinv', hpage⟩
    · trivial
    refine Safe.bind (Safe.mono (SafeTask.keeps (ih (some bound) hinv') (only_listPages _ bounds)
      (fun _ _ => leaves_asksPages) hinv') ?_)
    rintro world'' (error | rest) ⟨hkeeps, -, hrest⟩
    · trivial
    intro key
    rcases hrest key with hseen | ⟨hcovers, hsame⟩
    · exact .inl (hseen.evolves (fun _ h => List.mem_append_right _ h) (.refl _) rfl)
    have hkey := hpage key
    cases hcovers' : pageCovers after (some bound) key with
    | true =>
      rw [hcovers', if_pos rfl] at hkey
      exact .inl (hkey.evolves (fun _ h => List.mem_append_left _ h) hkeeps.evolves hsame)
    | false =>
      rw [hcovers', if_neg Bool.false_ne_true] at hkey
      refine .inr ⟨Bool.eq_false_iff.mpr fun h => ?_, hsame.trans hkey⟩
      rcases pageCovers_split after bound key h with h | h
      · rw [hcovers'] at h
        cases h
      · rw [hcovers] at h
        cases h

theorem safe_listEntries :
    SafeTask tid listEntries world (onOk fun world' entries =>
      ∀ key, PageSeen tid key entries world') := by
  intro world' _ hinv'
  refine ⟨trivial, fun choice _ => ?_⟩
  refine (safe_listPages none choice.bounds hinv').mono ?_
  rintro world'' (error | entries) hpost
  · trivial
  · exact fun key => (hpost key).resolve_right fun h => by simp [pageCovers] at h

end Reads

end Atlantide
