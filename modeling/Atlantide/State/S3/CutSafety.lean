import Atlantide.State.S3.ReadSafety

/-! # What a cut contains

A cut is read against one snapshot, found unchanged at the end. Of every item it holds what the
attempt saw of it: the head as of the moment its head was read, and every entry stored by the moment
its place in the listing was shown, unless the snapshot holds it. -/

namespace Atlantide

open Interleaving History

variable {tid : Tid} {world world' start : World} {snap : Snapshot}

/-- The attempt's snapshot is the one that was there in `start`. -/
structure Opened (tid : Tid) (start : World) (snap : Snapshot) (world : World) : Prop where
  inv : WorldInv start
  snapshot : start.store.snapshot = some snap
  opening : opening tid world.history = some start.history
  evolves : Evolves start world

/-- Of each item the attempt has the head it last read, or never read one. -/
def HeadsSeen (tid : Tid) (heads : Dict Item Head) (since history : History) : Prop :=
  ∀ item, HeadSeen tid item heads[item]? since history ∨
    (lastSince tid (Event.reads item) history = none ∧ heads[item]? = none)

/-- What is known after a listing and the head reads it calls for. -/
structure Gathered (tid : Tid) (start : World) (snap : Snapshot) (listed : Dict Item (List EntryKey))
    (heads : Dict Item Head) (world : World) : Prop extends Opened tid start snap world where
  heads : HeadsSeen tid heads start.history world.history
  pages : ∀ key, ∃ past, lastSince tid (Event.lists key) world.history = some past ∧
    ∀ entry, Stored past key entry → lastSince tid (Event.reads key.item) world.history ≠ none ∨
      key.seq ≤ watermark snap.doc key.item ∨ key.seq ≤ watermark world.store.doc key.item
  own : ∀ item key, key ∈ listed.getD item [] → key.item = item

/-- What a cut holds, whatever has happened since. -/
structure CutSound (cut : Cut) (start world : World) : Prop where
  inv : WorldInv start
  snapshot : start.store.snapshot = some ⟨cut.doc, cut.etag⟩
  evolves : Evolves start world
  committed : ∀ (item : Item) (head : Head) seq, cut.heads[item]? = some head → head.seq = some seq →
    ∃ update, Committed world.history update ∧ update.item = item ∧ update.seq = seq ∧
      head.ref = some update.ref
  fetched : ∀ (item : Item) (head : Head), cut.effective[item]? = some head →
    ∃ ref entry, head.ref = some ref ∧ cut.entries[item]? = some entry ∧ Stored world.history ref entry
  entries_effective : ∀ (item : Item) (entry : JournalEntry), cut.entries[item]? = some entry →
    ∃ head, cut.effective[item]? = some head
  own : ∀ item key, key ∈ cut.listed.getD item [] → key.item = item

/-- What the attempt that returned the cut saw. -/
structure CutSeen (tid : Tid) (cut : Cut) (start world : World) : Prop
    extends CutSound cut start world where
  opening : opening tid world.history = some start.history
  heads : HeadsSeen tid cut.heads start.history world.history
  pages : ∀ key, ∃ past, lastSince tid (Event.lists key) world.history = some past ∧
    ∀ entry, Stored past key entry → lastSince tid (Event.reads key.item) world.history ≠ none ∨
      key.seq ≤ watermark cut.doc key.item

theorem Opened.keeps {may : Event → Prop} (hopened : Opened tid start snap world)
    (hkeeps : Keeps tid may world world') (hmay : ∀ event, may event → event.opens = false) :
    Opened tid start snap world' :=
  ⟨hopened.inv, hopened.snapshot, (hkeeps.opening_eq hmay).trans hopened.opening,
    hopened.evolves.trans hkeeps.evolves⟩

theorem Gathered.keeps {listed : Dict Item (List EntryKey)} {heads : Dict Item Head}
    (hgathered : Gathered tid start snap listed heads world)
    (hkeeps : Keeps tid (fun _ => False) world world') :
    Gathered tid start snap listed heads world' := by
  have hlast : ∀ seen, lastSince tid seen world'.history = lastSince tid seen world.history :=
    fun seen => hkeeps.lastSince_eq fun _ h => h.elim
  refine ⟨hgathered.toOpened.keeps hkeeps fun _ h => h.elim, fun item => ?_, fun key => ?_,
    hgathered.own⟩
  · rw [HeadSeen, hlast]
    exact hgathered.heads item
  · obtain ⟨past, hpast, hshown⟩ := hgathered.pages key
    obtain ⟨more, hgrows⟩ := hkeeps.evolves
    refine ⟨past, (hlast _).trans hpast, fun entry hstored => ?_⟩
    rw [hlast]
    exact (hshown entry hstored).imp_right fun h => h.imp_right fun hmark =>
      Nat.le_trans hmark (hgrows.marks key.item)

/-- A listing shows the keys of the items whose heads are then read. -/
theorem Opened.gather {heads found : Dict Item Head} {entries : List EntryKey} {unread : List Item}
    {listedAt : World} (hopened : Opened tid start snap world)
    (hheads : HeadsSeen tid heads start.history world.history)
    (hlisting : Keeps tid Event.IsPage world listedAt)
    (hpages : ∀ key, PageSeen tid key entries listedAt)
    (hreading : Keeps tid (fun event => ∃ item ∈ unread, ∃ head, event = .headRead item head)
      listedAt world')
    (hfound : ∀ item, (item ∈ unread → HeadSeen tid item found[item]? listedAt.history world'.history) ∧
      (item ∉ unread → found[item]? = none))
    (hunread : unread =
      (itemsPastWatermark snap.doc (groupListing entries)).filter fun item => item ∉ heads) :
    Gathered tid start snap (groupListing entries) (heads ∪ found) world' := by
  have hunion : ∀ item, (heads ∪ found)[item]? = found[item]?.or heads[item]? := fun item =>
    Std.ExtTreeMap.getElem?_union
  have hunread_none : ∀ item ∈ unread, heads[item]? = none := by
    intro item hitem
    rw [hunread, List.mem_filter, decide_eq_true_eq] at hitem
    exact Std.ExtTreeMap.getElem?_eq_none hitem.2
  have hlisted : ∀ item, lastSince tid (Event.reads item) listedAt.history =
      lastSince tid (Event.reads item) world.history := fun item =>
    hlisting.lastSince_eq fun event ⟨_, _, h⟩ => by subst h; exact ⟨rfl, rfl⟩
  -- A head that is not read now was read before, or never.
  have hlater : ∀ item ∉ unread, lastSince tid (Event.reads item) world'.history =
      lastSince tid (Event.reads item) world.history := by
    intro item hitem
    refine (hreading.lastSince_eq ?_).trans (hlisted item)
    rintro event ⟨other, hother, head, rfl⟩
    have hne : other ≠ item := by
      rintro rfl
      exact hitem hother
    exact ⟨rfl, by simp [Event.reads, hne]⟩
  have hheads' : HeadsSeen tid (heads ∪ found) start.history world'.history := by
    intro item
    rw [hunion]
    by_cases hitem : item ∈ unread
    · rw [hunread_none item hitem, Option.or_none]
      exact .inl (((hfound item).1 hitem).mono (hopened.evolves.trans hlisting.evolves).suffix)
    · rw [(hfound item).2 hitem, Option.none_or, HeadSeen, hlater item hitem]
      exact hheads item
  refine ⟨⟨hopened.inv, hopened.snapshot, ?_, ?_⟩, hheads', fun key => ?_, fun item key hkey => ?_⟩
  · rw [hreading.opening_eq, hlisting.opening_eq, hopened.opening]
    · rintro event ⟨_, _, rfl⟩
      rfl
    · rintro event ⟨_, _, _, rfl⟩
      rfl
  · exact (hopened.evolves.trans hlisting.evolves).trans hreading.evolves
  · obtain ⟨past, hpast, hshown⟩ := hpages key
    obtain ⟨more, hgrows⟩ := hreading.evolves
    refine ⟨past, ?_, fun entry hstored => ?_⟩
    · rw [hreading.lastSince_eq, hpast]
      rintro event ⟨_, _, _, rfl⟩
      exact ⟨rfl, rfl⟩
    rcases hshown entry hstored with hmem | hmark
    · by_cases hpastmark : key.seq ≤ watermark snap.doc key.item
      · exact .inr (.inl hpastmark)
      left
      have hitem := mem_itemsPastWatermark hmem (Nat.lt_of_not_le hpastmark)
      by_cases hhead : key.item ∈ unread
      · obtain ⟨past', hpast', -⟩ := (hfound key.item).1 hhead
        rw [hpast']
        exact Option.some_ne_none _
      · have hknown : key.item ∈ heads := by
          by_contra hnot
          exact hhead (hunread ▸ List.mem_filter.mpr ⟨hitem, decide_eq_true hnot⟩)
        rw [hlater _ hhead]
        rcases hheads key.item with ⟨past', hpast', -⟩ | ⟨-, hnone⟩
        · rw [hpast']
          exact Option.some_ne_none _
        · rw [Std.ExtTreeMap.mem_iff_isSome_getElem?, hnone] at hknown
          cases hknown
    · exact .inr (.inr (Nat.le_trans hmark (hgrows.marks key.item)))
  · exact (mem_groupListing.mp hkey).2

namespace Reads

/-! ## The relist loop -/

def AsksLook (request : Request) : Prop := AsksPages request ∨ ∃ items, AsksHeads items request

theorem safe_look {α : Type} {heads : Dict Item Head} {unread : List EntryKey → List Item}
    {next : List EntryKey → Dict Item Head → Backend α}
    {post : World → Except Error α → Prop}
    (hunread : ∀ entries, unread entries =
      (itemsPastWatermark snap.doc (groupListing entries)).filter fun item => item ∉ heads)
    (hopened : Opened tid start snap world) (hheads : HeadsSeen tid heads start.history world.history)
    (hinv : WorldInv world)
    (hnext : ∀ entries found world', WorldInv world' →
      Gathered tid start snap (groupListing entries) (heads ∪ found) world' →
      SafeTask tid (next entries found) world' post)
    (herror : ∀ world' error, post world' (.error error)) :
    SafeTask tid (listEntries.bind fun entries =>
      (readHeads (unread entries)).bind (next entries)) world post := by
  refine Safe.bind (Safe.mono (SafeTask.keeps safe_listEntries only_listEntries
    (fun request event => leaves_asksPages) hinv) ?_)
  rintro listedAt (error | entries) ⟨hlisting, hinv', hpages⟩
  · exact herror _ _
  refine Safe.bind (Safe.mono (SafeTask.keeps (safe_readHeads (unread entries) hinv') (only_readHeads _)
    (fun request event => leaves_asksHeads) hinv') ?_)
  rintro world' (error | found) ⟨hreading, hinv'', hfound⟩
  · exact herror _ _
  exact hnext _ _ _ hinv'' (hopened.gather hheads hlisting hpages hreading hfound (hunread entries))

theorem safe_relist {listed : Dict Item (List EntryKey)} {heads : Dict Item Head}
    (hgathered : Gathered tid start snap listed heads world) (hinv : WorldInv world)
    (attempts : Nat) :
    SafeTask tid (relist snap attempts listed heads) world (onOk fun world' cut =>
      WorldInv world' ∧ cut.doc = snap.doc ∧ cut.etag = snap.etag ∧
        Gathered tid start snap cut.listed cut.heads world') := by
  induction attempts generalizing listed heads world with
  | zero => exact ⟨hinv, rfl, rfl, hgathered⟩
  | succ attempts ih =>
    unfold relist
    dsimp only
    split
    · exact ⟨hinv, rfl, rfl, hgathered⟩
    · exact safe_look (fun _ => rfl) hgathered.toOpened hgathered.heads hinv
        (fun entries found world' hinv' h => ih h hinv') fun _ _ => trivial

/-! ## Entries -/

def AsksEntries : Request → Prop
  | .aws (.getEntry _) | .schedule => True
  | _ => False

theorem leaves_asksEntries {request : Request} {event : Event} (hasks : AsksEntries request)
    (h : request.Leaves event) : False := by
  match request, hasks with
  | .aws (.getEntry key), _ =>
    obtain ⟨store, hmem⟩ := h
    cases hmem
  | .schedule, _ => exact h

theorem safe_getEntry {may : Event → Prop} (ref : EntryKey) :
    SafeThread tid may AsksEntries (getEntry ref) world
      (onOk fun world' entry => Stored world'.history ref entry) := by
  refine Safe.bind (safe_send (fun _ => True) ⟨fun _ => rfl, rfl⟩ (fun _ _ _ _ _ => trivial)
    (fun _ _ _ => ⟨trivial, trivial⟩) ?_ (fun _ _ => trivial) trivial)
  intro a _ hinv _
  refine ⟨trivial, ?_⟩
  dsimp only [Store.serve]
  split
  next entry hentry => exact hinv.journal.entries_stored ref entry hentry
  next => trivial

theorem only_getEntry (ref : EntryKey) : (getEntry ref).Only AsksEntries :=
  Prog.Only.bind (only_send trivial) fun entry => by cases entry <;> trivial

theorem fetchedEntries_of_not_mem {items : List Item} {item : Item} (hitem : item ∉ items)
    (fetched : List JournalEntry) (entries : Dict Item JournalEntry) :
    (fetchedEntries items fetched entries)[item]? = entries[item]? := by
  induction items generalizing fetched entries with
  | nil => rfl
  | cons first items ih =>
    cases fetched with
    | nil => rfl
    | cons entry fetched =>
      rw [List.mem_cons, not_or] at hitem
      refine (ih hitem.2 fetched _).trans ?_
      simp [Std.ExtTreeMap.getElem?_insert, Ne.symm hitem.1]

theorem fetchedEntries_of_mem {items : List Item} (hnodup : items.Nodup)
    {fetched : List JournalEntry} {i : Nat} {item : Item} {entry : JournalEntry}
    (hitem : items[i]? = some item) (hentry : fetched[i]? = some entry)
    (entries : Dict Item JournalEntry) :
    (fetchedEntries items fetched entries)[item]? = some entry := by
  induction items generalizing fetched entries i with
  | nil => cases hitem
  | cons first items ih =>
    rw [List.nodup_cons] at hnodup
    cases fetched with
    | nil => cases hentry
    | cons first' fetched =>
      cases i with
      | zero =>
        obtain rfl : first = item := Option.some.inj hitem
        obtain rfl : first' = entry := Option.some.inj hentry
        refine (fetchedEntries_of_not_mem hnodup.1 fetched _).trans ?_
        simp
      | succ i => exact ih hnodup.2 hitem hentry _

theorem only_fetch (cut : Cut) : (fetch cut).Only AsksEntries := by
  refine Prog.Only.bind (only_parallel trivial fun pair _ => ?_) fun _ => trivial
  cases pair.2.ref with
  | none => trivial
  | some ref => exact only_getEntry ref

theorem safe_fetch (cut : Cut) (hinv : WorldInv world) :
    SafeTask tid (fetch cut) world (onOk fun world' read =>
      ∃ entries : Dict Item JournalEntry, read = { cut with entries } ∧
        (∀ (item : Item) (head : Head), cut.effective[item]? = some head →
          ∃ ref entry, head.ref = some ref ∧ entries[item]? = some entry ∧
            Stored world'.history ref entry) ∧
        ∀ (item : Item) (entry : JournalEntry), entries[item]? = some entry →
          ∃ head, cut.effective[item]? = some head) := by
  have hkeys : (cut.effective.toList.map Prod.fst).Nodup := by
    rw [Std.ExtTreeMap.map_fst_toList_eq_keys]
    exact Std.ExtTreeMap.nodup_keys
  refine Safe.bind (Safe.mono (safe_parallel (fun _ => AsksEntries) (fun _ _ => False)
    (fun pair => onOk fun world' entry => ∃ ref, pair.2.ref = some ref ∧
      Stored world'.history ref entry) ?_ ?_ hinv ?_) ?_)
  · exact fun _ _ _ _ _ _ _ request event hasks => leaves_asksEntries hasks
  · rintro pair a b (error | entry) ⟨more, hgrows, -⟩ - hgoal
    · trivial
    · obtain ⟨ref, href, hstored⟩ := hgoal
      exact ⟨ref, href, hgrows.history ▸ hstored.append more⟩
  · intro pair _ world' _ _
    cases href : pair.2.ref with
    | none => trivial
    | some ref =>
      refine (safe_getEntry ref).mono ?_
      rintro world'' (error | entry) hstored
      · trivial
      · exact ⟨ref, rfl, hstored⟩
  rintro world' (error | fetched) hpost
  · trivial
  obtain ⟨hlength, hgoal⟩ := hpost
  refine ⟨_, rfl, fun item head hhead => ?_, fun item entry hentry => ?_⟩
  · have hmem := Std.ExtTreeMap.mem_toList_iff_getElem?_eq_some.mpr hhead
    obtain ⟨i, hindex⟩ := List.mem_iff_getElem?.mp hmem
    obtain ⟨entry, hentry⟩ : ∃ entry, fetched[i]? = some entry := by
      have hlt := (List.getElem?_eq_some_iff.mp hindex).1
      exact ⟨_, List.getElem?_eq_getElem (by omega)⟩
    obtain ⟨ref, href, hstored⟩ := hgoal i _ entry hindex hentry
    refine ⟨ref, entry, href, ?_, hstored⟩
    exact fetchedEntries_of_mem hkeys (by rw [List.getElem?_map, hindex]; rfl) hentry ∅
  · by_contra hnone
    have hnot : item ∉ cut.effective.toList.map Prod.fst := by
      intro hmem
      obtain ⟨⟨item', head⟩, hpair, rfl⟩ := List.mem_map.mp hmem
      exact hnone ⟨head, Std.ExtTreeMap.mem_toList_iff_getElem?_eq_some.mp hpair⟩
    have := (fetchedEntries_of_not_mem hnot fetched ∅).symm.trans hentry
    simp at this

/-! ## The whole read -/

/-- What `readJournal` hands on. -/
structure JournalRead (tid : Tid) (start : World) (snap : Snapshot) (cut : Cut) (world : World) : Prop
    extends Gathered tid start snap cut.listed cut.heads world where
  doc : cut.doc = snap.doc
  etag : cut.etag = snap.etag
  fetched : ∀ (item : Item) (head : Head), cut.effective[item]? = some head →
    ∃ ref entry, head.ref = some ref ∧ cut.entries[item]? = some entry ∧ Stored world.history ref entry
  entries_effective : ∀ (item : Item) (entry : JournalEntry), cut.entries[item]? = some entry →
    ∃ head, cut.effective[item]? = some head

theorem safe_readJournal (hopened : Opened tid start snap world)
    (hnone : ∀ seen, lastSince tid seen world.history = none) (hinv : WorldInv world) :
    SafeTask tid (readJournal snap) world (onOk fun world' cut =>
      WorldInv world' ∧ JournalRead tid start snap cut world') := by
  refine safe_look (fun entries => (List.filter_eq_self.mpr fun item _ => ?_).symm) hopened
    (fun item => .inr ⟨hnone _, Std.ExtTreeMap.getElem?_empty⟩) hinv ?_ ?_
  · simp
  rotate_left
  · exact fun _ _ => trivial
  intro entries found world' hinv' hgathered
  have hempty : (∅ : Dict Item Head) ∪ found = found := by
    apply Std.ExtTreeMap.ext_getElem?
    intro item
    rw [Std.ExtTreeMap.getElem?_union, Std.ExtTreeMap.getElem?_empty, Option.or_none]
  rw [hempty] at hgathered
  refine Safe.bind (Safe.mono (safe_relist hgathered hinv' limits.relistAttempts) ?_)
  rintro world'' (error | cut) hrelist
  · trivial
  obtain ⟨hinv'', hdoc, hetag, hgathered'⟩ := hrelist
  refine Safe.mono (SafeTask.keeps (safe_fetch cut hinv'') (only_fetch cut)
    (fun request event => leaves_asksEntries) hinv'') ?_
  rintro last (error | read) ⟨hkeeps, hinvl, hfetch⟩
  · trivial
  obtain ⟨entries, rfl, hfetched, heffective⟩ := hfetch
  exact ⟨hinvl, ⟨hgathered'.keeps hkeeps, hdoc, hetag, hfetched, heffective⟩⟩

/-- The snapshot is found at the same ETag: nothing was folded meanwhile, so what the listing did not
show is in the snapshot. -/
theorem JournalRead.cutSeen {cut : Cut} (hread : JournalRead tid start snap cut world)
    (hetag : world.store.snapshot.map Snapshot.etag = some snap.etag) :
    CutSeen tid cut start world := by
  obtain ⟨more, hgrows⟩ := hread.evolves
  obtain ⟨found, hfound, hsame⟩ := Option.map_eq_some_iff.mp hetag
  obtain ⟨rfl, -⟩ := hgrows.same_snapshot hread.inv hread.snapshot hfound hsame
  have hdoc : world.store.doc = cut.doc := by rw [Store.doc, hfound, hread.doc]; rfl
  refine ⟨⟨hread.inv, ?_, hread.evolves, ?_, hread.fetched, hread.entries_effective, hread.own⟩,
    hread.opening, hread.heads, fun key => ?_⟩
  · rw [hread.doc, hread.etag]
    exact hread.snapshot
  · intro item head seq hhead hseq
    rcases hread.heads item with ⟨past, hpast, -, hat⟩ | ⟨-, hnone⟩
    · rw [hhead] at hat
      have hnewest := hat.seq
      have href := hat.ref
      rw [Option.bind_some, hseq] at hnewest
      rw [Option.bind_some] at href
      obtain ⟨update, hupdate, hupdate_seq⟩ := Option.map_eq_some_iff.mp hnewest.symm
      obtain ⟨hcommitted, hitem⟩ := committed_of_newest hupdate
      obtain ⟨moment, ⟨later, hlater⟩, -⟩ := lastSince_suffix hpast
      refine ⟨update, ?_, hitem, hupdate_seq, by rw [href, hupdate]; rfl⟩
      rw [← hlater]
      exact (hcommitted.append [moment]).append later
    · rw [hhead] at hnone
      cases hnone
  · obtain ⟨past, hpast, hshown⟩ := hread.pages key
    refine ⟨past, hpast, fun entry hstored => (hshown entry hstored).imp_right fun h => ?_⟩
    rw [hdoc, hread.doc, or_self] at h
    rwa [hread.doc]

theorem JournalRead.keeps {cut : Cut} (hread : JournalRead tid start snap cut world)
    (hkeeps : Keeps tid (fun _ => False) world world') : JournalRead tid start snap cut world' := by
  obtain ⟨more, hgrows⟩ := hkeeps.evolves
  refine ⟨hread.toGathered.keeps hkeeps, hread.doc, hread.etag, fun item head hhead => ?_,
    hread.entries_effective⟩
  obtain ⟨ref, entry, href, hentry, hstored⟩ := hread.fetched item head hhead
  exact ⟨ref, entry, href, hentry, hgrows.history ▸ hstored.append more⟩

theorem safe_attempt (hopened : Opened tid start snap world)
    (hnone : ∀ seen, lastSince tid seen world.history = none) (hinv : WorldInv world) :
    SafeTask tid (attempt snap) world (onOk fun world' read =>
      WorldInv world' ∧ ∀ cut, read = some cut → CutSeen tid cut start world') := by
  refine Safe.bind (Safe.outcome (Safe.mono
    (SafeTask.evolves (safe_readJournal hopened hnone hinv) hinv) ?_))
  rintro world' (error | cut) ⟨-, hinv', hpost⟩
  · cases error with
    | entryVanished => exact ⟨hinv', fun _ h => nomatch h⟩
    | _ => trivial
  obtain ⟨-, hread⟩ := hpost
  refine Safe.bind (safe_send (fun a => WorldInv a ∧ JournalRead tid start snap cut a)
    ⟨fun _ => rfl, rfl⟩ ?_ (fun _ _ _ => trivial) ?_ (fun _ _ => trivial) ⟨hinv', hread⟩)
  · rintro a b ⟨-, hreada⟩ hrely hinvb
    exact ⟨hinvb, hreada.keeps (.of_rely hrely)⟩
  · rintro a ⟨-, hreada⟩ hinva hinvb
    have hkeeps : Keeps tid (fun _ => False) a (a.after tid .headSnapshot) :=
      Keeps.of_serve (.aws .headSnapshot) {} hinva trivial
        fun event ⟨store, hmem⟩ => nomatch hmem
    refine ⟨⟨hinvb, hreada.keeps hkeeps⟩, ?_⟩
    refine ⟨hinvb, fun cut' hcut => ?_⟩
    split at hcut
    next hetag =>
      cases hcut
      exact (hreada.keeps hkeeps).cutSeen hetag
    next => cases hcut

/-- The snapshot read, or its absence, is that of a moment the attempt starts at. -/
theorem safe_getSnapshot (hinv : WorldInv world) :
    SafeTask tid Snapshots.get world (onOk fun world' found => WorldInv world' ∧
      (∀ seen, lastSince tid seen world'.history = none) ∧
        ∀ snap, found = some snap → ∃ start, Evolves world start ∧ Opened tid start snap world') := by
  refine safe_send (fun a => WorldInv a ∧ Evolves world a) ⟨fun _ => rfl, rfl⟩ ?_
    (fun _ _ _ => trivial) ?_ (fun _ _ => trivial) ⟨hinv, .refl world⟩
  · rintro a b ⟨-, hevolves⟩ hrely hinvb
    exact ⟨hinvb, hevolves.trans hrely.evolves⟩
  · rintro a ⟨-, hevolves⟩ hinva hinvb
    have hkeeps : Keeps tid (fun _ => True) a (a.after tid .getSnapshot) :=
      Keeps.of_serve (.aws .getSnapshot) {} hinva trivial fun _ _ => trivial
    refine ⟨⟨hinvb, hevolves.trans hkeeps.evolves⟩, hinvb, fun seen => ?_, fun snap hsnap => ?_⟩
    · exact lastSince_cons_opens rfl rfl
    · exact ⟨a, hevolves, hinva, hsnap, opening_cons_opens rfl rfl, hkeeps.evolves⟩

/-- **What a returned cut has seen.** -/
theorem safe_cut (hinv : WorldInv world) :
    SafeTask tid Reads.cut world (onOk fun world' read => WorldInv world' ∧
      ∀ cut, read = some cut → ∃ start, Evolves world start ∧ CutSeen tid cut start world') := by
  unfold Reads.cut
  generalize limits.readAttempts = attempts
  suffices h : ∀ world', Evolves world world' → WorldInv world' →
      SafeTask tid (cutUpTo attempts) world' (onOk fun world'' read => WorldInv world'' ∧
        ∀ cut, read = some cut → ∃ start, Evolves world start ∧ CutSeen tid cut start world'') from
    h world (.refl world) hinv
  induction attempts with
  | zero => exact fun _ _ _ => trivial
  | succ attempts ih =>
    intro world' hevolves hinv'
    refine Safe.bind (Safe.mono (safe_getSnapshot hinv') ?_)
    rintro opened (error | found) hpost
    · trivial
    obtain ⟨hinvo, hnone, hopened⟩ := hpost
    cases found with
    | none => exact ⟨hinvo, fun _ h => nomatch h⟩
    | some snap =>
      obtain ⟨start, hstart, hopened⟩ := hopened snap rfl
      refine Safe.bind (Safe.mono (SafeTask.evolves (safe_attempt hopened hnone hinvo) hinvo) ?_)
      rintro last (error | read) ⟨hlast, hinvl, hread⟩
      · trivial
      obtain ⟨-, hseen⟩ := hread
      cases read with
      | none =>
        exact ih last ((hevolves.trans hstart).trans (hopened.evolves.trans hlast)) hinvl
      | some cut =>
        refine ⟨hinvl, fun cut' hcut => ?_⟩
        cases hcut
        exact ⟨start, hevolves.trans hstart, hseen cut rfl⟩

end Reads

end Atlantide
