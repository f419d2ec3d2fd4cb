import Atlantide.IR.Canonical
import Atlantide.Secrets.Keyfile

/-! # What the processes of an install keep

The key, once it is there, is the key of every process; the store can always be opened, and holds
what was written to it, one change after the other. Both rest on what a process may rely on of the
others: that the key stays, and, while it holds the lock, that the store does. -/

namespace Atlantide.Secrets

open Interleaving

variable {α β : Type} {library : Library} {pid : Pid} {files files' files'' : Files} {key : Bytes}

theorem replay_concat (changes : List Change) (change : Change) :
    replay (changes ++ [change]) = Change.apply (replay changes) change :=
  List.foldl_concat ..

/-- The install's key. -/
def Files.Keyed (files : Files) (key : Bytes) : Prop :=
  key.length = keyBytes ∧ ∃ mode, files.keyFile = some (mode, key)

/-- The file holds the values, encrypted under the key. -/
def Stores (library : Library) (key blob : Bytes) (values : Dict String String) : Prop :=
  ∃ nonce : Bytes, nonce.length = nonceBytes ∧ blob = storeBlob library key nonce values

/-- The store holds what was written to it, under the install's key. -/
structure Files.Sound (library : Library) (files : Files) : Prop where
  fresh : files.store = none → files.commits = []
  opens : ∀ blob, files.store = some blob →
    ∃ key, files.Keyed key ∧ Stores library key blob (replay files.commits)

/-- What a process may rely on: the key stays, nothing written is taken back, and nobody else writes
while the lock is its own. -/
structure Rely (pid : Pid) (files files' : Files) : Prop where
  key : ∀ mode bytes, files.keyFile = some (mode, bytes) →
    ∃ mode', files'.keyFile = some (mode', bytes)
  commits : files.commits <+: files'.commits
  killed : files.killed pid → files'.killed pid
  held : files.holder = some pid → files'.killed pid ∨
    (files'.holder = some pid ∧ files'.commits = files.commits)

/-- What a process may ask for. -/
def Legit (library : Library) (pid : Pid) (files : Files) : Request → Prop
  | .linkKey key => key.length = keyBytes
  | .replaceStore blob change => files.killed pid ∨ (files.holder = some pid ∧
    ∃ key, files.Keyed key ∧ Stores library key blob (Change.apply (replay files.commits) change))
  | _ => True

namespace Rely

theorem refl (pid : Pid) (files : Files) : Rely pid files files where
  key mode _ hkey := ⟨mode, hkey⟩
  commits := List.prefix_rfl
  killed hkilled := hkilled
  held hheld := .inr ⟨hheld, rfl⟩

theorem trans (hfirst : Rely pid files files') (hsecond : Rely pid files' files'') :
    Rely pid files files'' where
  key mode bytes hkey := by
    obtain ⟨mode', hkey'⟩ := hfirst.key mode bytes hkey
    exact hsecond.key mode' bytes hkey'
  commits := hfirst.commits.trans hsecond.commits
  killed hkilled := hsecond.killed (hfirst.killed hkilled)
  held hheld := by
    cases hfirst.held hheld with
    | inl hkilled => exact .inl (hsecond.killed hkilled)
    | inr hstill =>
      refine (hsecond.held hstill.1).imp id fun hagain => ⟨hagain.1, ?_⟩
      rw [hagain.2, hstill.2]

end Rely

theorem Files.Keyed.rely (hkeyed : files.Keyed key) (hrely : Rely pid files files') :
    files'.Keyed key := by
  obtain ⟨hlength, mode, hkey⟩ := hkeyed
  exact ⟨hlength, hrely.key mode key hkey⟩

theorem Files.Keyed.unique {other : Bytes} (hkeyed : files.Keyed key) (hother : files.Keyed other) :
    key = other := by
  obtain ⟨-, mode, hkey⟩ := hkeyed
  obtain ⟨-, mode', hkey'⟩ := hother
  rw [hkey] at hkey'
  cases hkey'
  rfl

/-! ## What a request does -/

/-- Requests that leave the lock and the store alone. -/
def Request.Quiet : Request → Prop
  | .replaceStore .. | .lock | .unlock => False
  | _ => True

/-- What a reply says of the files. -/
def Request.Tells (files : Files) : (request : Request) → request.Result → Prop
  | .keyExists, found => found = files.keyFile.isSome
  | .readKey, bytes => ∃ mode, files.keyFile = some (mode, bytes)
  | .linkKey key, linked => linked = true → ∃ mode, files.keyFile = some (mode, key)
  | .storeExists, found => found = files.store.isSome
  | .readStore, blob => files.store = some blob
  | _, _ => True

namespace Files

variable {random : (count : Nat) → { bytes : Bytes // bytes.length = count }} {request : Request}

theorem linked_cases (files : Files) (key : Bytes) :
    (files.keyFile = none ∧ files.linked key =
      (true, { files with key := .file privateMode key })) ∨ files.linked key = (false, files) := by
  unfold linked keyFile
  cases files.key with
  | free => exact .inl ⟨rfl, rfl⟩
  | dangling => exact .inr rfl
  | file mode bytes => exact .inr rfl

theorem taken_cases (files : Files) (pid : Pid) :
    (files.holder = none ∧ files.taken pid = (some (), { files with holder := some pid })) ∨
      files.taken pid = (none, files) := by
  unfold taken
  cases hholder : files.holder with
  | none => exact .inl ⟨rfl, rfl⟩
  | some other => exact .inr rfl

theorem released_cases (files : Files) (pid : Pid) :
    (files.holder = some pid ∧ files.released pid = { files with holder := none }) ∨
      files.released pid = files := by
  unfold released
  split
  next hown => exact .inl ⟨hown, rfl⟩
  next => exact .inr rfl

theorem rely_linked (other : Pid) (key : Bytes) : Rely other files (files.linked key).2 := by
  rcases files.linked_cases key with ⟨hfree, hlinked⟩ | hlinked
  · rw [hlinked]
    refine ⟨fun mode bytes hkey => ?_, List.prefix_rfl, id, fun hheld => .inr ⟨hheld, rfl⟩⟩
    rw [hfree] at hkey
    cases hkey
  · rw [hlinked]
    exact Rely.refl other files

theorem rely_quiet (hquiet : request.Quiet) (other : Pid) :
    Rely other files (files.perform pid random request).2 := by
  cases request with
  | linkKey key => exact rely_linked other key
  | replaceStore _ _ | lock | unlock => exact hquiet.elim
  | _ => exact Rely.refl other files

theorem tells_perform (hquiet : request.Quiet) {value : request.Result}
    (hreply : (files.perform pid random request).1 = some value) :
    request.Tells (files.perform pid random request).2 value := by
  cases request with
  | keyExists => exact (Option.some.inj hreply).symm
  | readKey =>
    obtain ⟨⟨mode, bytes⟩, hfile, hbytes⟩ := Option.map_eq_some_iff.mp hreply
    cases hbytes
    exact ⟨mode, hfile⟩
  | linkKey key =>
    have hvalue := Option.some.inj hreply
    intro htrue
    change ∃ mode, (files.linked key).2.keyFile = some (mode, key)
    rcases files.linked_cases key with ⟨-, hlinked⟩ | hlinked
    · rw [hlinked]
      exact ⟨privateMode, rfl⟩
    · rw [hlinked, htrue] at hvalue
      cases hvalue
  | storeExists => exact (Option.some.inj hreply).symm
  | readStore => exact hreply
  | replaceStore _ _ | lock | unlock => exact hquiet.elim
  | _ => trivial

theorem Sound.congr (hsound : files.Sound library) (hrely : Rely pid files files')
    (hstore : files'.store = files.store) (hcommits : files'.commits = files.commits) :
    files'.Sound library := by
  constructor
  · rw [hstore, hcommits]
    exact hsound.fresh
  · rw [hstore, hcommits]
    intro blob hblob
    obtain ⟨key, hkeyed, hstores⟩ := hsound.opens blob hblob
    exact ⟨key, hkeyed.rely hrely, hstores⟩

theorem sound_linked (hsound : files.Sound library) (key : Bytes) :
    (files.linked key).2.Sound library := by
  refine hsound.congr (rely_linked 0 key) ?_ ?_
  all_goals
    rcases files.linked_cases key with ⟨-, hlinked⟩ | hlinked
    · rw [hlinked]
    · rw [hlinked]

/-- A legitimate request taking effect keeps the store sound. -/
theorem sound_perform (hsound : files.Sound library) (hlegit : Legit library pid files request)
    (halive : files.killed pid = false) :
    (files.perform pid random request).2.Sound library := by
  cases request with
  | linkKey key => exact sound_linked hsound key
  | replaceStore blob change =>
    cases hlegit with
    | inl hdead => rw [halive] at hdead; cases hdead
    | inr hlegit =>
      obtain ⟨-, key, hkeyed, hstores⟩ := hlegit
      refine ⟨fun hnone => (by cases hnone), fun written hwritten => ⟨key, hkeyed, ?_⟩⟩
      cases hwritten
      change Stores library key blob (replay (files.commits ++ [change]))
      rw [replay_concat]
      exact hstores
  | lock =>
    change (files.taken pid).2.Sound library
    rcases files.taken_cases pid with ⟨-, htaken⟩ | htaken
    · rw [htaken]
      exact ⟨hsound.fresh, hsound.opens⟩
    · rw [htaken]
      exact hsound
  | unlock =>
    change (files.released pid).Sound library
    rcases files.released_cases pid with ⟨-, hreleased⟩ | hreleased
    · rw [hreleased]
      exact ⟨hsound.fresh, hsound.opens⟩
    · rw [hreleased]
      exact hsound
  | _ => exact hsound

/-- A legitimate request of another process is one to rely on. -/
theorem rely_perform {other : Pid} (hne : other ≠ pid) (hlegit : Legit library pid files request)
    (halive : files.killed pid = false) :
    Rely other files (files.perform pid random request).2 := by
  cases request with
  | replaceStore blob change =>
    refine ⟨fun mode bytes hkey => ⟨mode, hkey⟩, List.prefix_append .., id, fun hheld => ?_⟩
    cases hlegit with
    | inl hdead => rw [halive] at hdead; cases hdead
    | inr hlegit => exact absurd (Option.some.inj (hheld.symm.trans hlegit.1)) hne
  | lock =>
    change Rely other files (files.taken pid).2
    rcases files.taken_cases pid with ⟨hfree, htaken⟩ | htaken
    · rw [htaken]
      refine ⟨fun mode bytes hkey => ⟨mode, hkey⟩, List.prefix_rfl, id, fun hheld => ?_⟩
      rw [hfree] at hheld
      cases hheld
    · rw [htaken]
      exact Rely.refl other files
  | unlock =>
    change Rely other files (files.released pid)
    rcases files.released_cases pid with ⟨hown, hreleased⟩ | hreleased
    · rw [hreleased]
      refine ⟨fun mode bytes hkey => ⟨mode, hkey⟩, List.prefix_rfl, id, fun hheld => ?_⟩
      exact absurd (Option.some.inj (hheld.symm.trans hown)) hne
    · rw [hreleased]
      exact Rely.refl other files
  | _ =>
    apply rely_quiet
    trivial

theorem sound_serve (hsound : files.Sound library) (hlegit : Legit library pid files request)
    (choice : Choice) : (Files.serve pid choice files request).2.Sound library := by
  unfold serve
  split
  · exact hsound
  next hkilled =>
    have hperformed : (files.perform pid choice.random request).2.Sound library :=
      sound_perform hsound hlegit (Bool.eq_false_iff.mpr hkilled)
    cases choice.fate with
    | done => exact hperformed
    | failed landed =>
      cases landed with
      | false => exact hsound
      | true => exact hperformed

theorem rely_serve {other : Pid} (hne : other ≠ pid) (hlegit : Legit library pid files request)
    (choice : Choice) : Rely other files (Files.serve pid choice files request).2 := by
  unfold serve
  split
  · exact Rely.refl other files
  next hkilled =>
    have hperformed : Rely other files (files.perform pid choice.random request).2 :=
      rely_perform hne hlegit (Bool.eq_false_iff.mpr hkilled)
    cases choice.fate with
    | done => exact hperformed
    | failed landed =>
      cases landed with
      | false => exact Rely.refl other files
      | true => exact hperformed

theorem rely_outside (event : Outside) (other : Pid) : Rely other files (outside event files) := by
  cases event with
  | kill victim =>
    refine ⟨fun mode bytes hkey => ⟨mode, hkey⟩, List.prefix_rfl, fun hkilled => ?_, fun hheld => ?_⟩
    · change Function.update files.killed victim true other = true
      by_cases hsame : other = victim
      · rw [hsame, Function.update_self]
      · rw [Function.update_of_ne hsame]
        exact hkilled
    · by_cases hsame : other = victim
      · left
        change Function.update files.killed victim true other = true
        rw [hsame, Function.update_self]
      · refine .inr ⟨?_, rfl⟩
        change (if files.holder = some victim then none else files.holder) = some other
        rw [if_neg fun hvictim => hsame (Option.some.inj (hheld.symm.trans hvictim))]
        exact hheld
  | chmod mode =>
    unfold outside
    dsimp only
    split
    next old bytes hfile =>
      refine ⟨fun _ key hkey => ⟨mode, ?_⟩, List.prefix_rfl, id, fun hheld => .inr ⟨hheld, rfl⟩⟩
      unfold keyFile at hkey
      rw [hfile] at hkey
      cases hkey
      rfl
    next => exact Rely.refl other files

theorem sound_outside (hsound : files.Sound library) (event : Outside) :
    (outside event files).Sound library := by
  refine hsound.congr (rely_outside event 0) ?_ ?_
  all_goals
    cases event with
    | kill victim => rfl
    | chmod mode =>
      unfold outside
      dsimp only
      split
      · rfl
      · rfl

end Files

/-! ## Rules for a process's steps -/

/-- The program asks only for what it may, and ends as `post` says. -/
abbrev SafeTask (library : Library) (pid : Pid) (program : Secret α) (files : Files)
    (post : Files → Except Fault α → Prop) : Prop :=
  Safe (Files.serve pid) ⟨Files.Sound library, Rely pid, Legit library pid⟩ program files post

/-- What a program that leaves lock and store alone gives, started on `files`. -/
def Gives (library : Library) (pid : Pid) (files : Files) (good : Files → α → Prop)
    (bad : Fault → Prop) (files' : Files) : Except Fault α → Prop
  | .ok value => Rely pid files files' ∧ files'.Sound library ∧ good files' value
  | .error fault => bad fault

variable {request : Request} {good : Files → α → Prop} {bad : Fault → Prop}
  {post : Files → Except Fault β → Prop}

theorem safe_attempt {next : request.Result → Secret β} (hos : ∀ files', post files' (.error .os))
    (hlegit : ∀ files', Rely pid files files' → files'.Sound library →
      Legit library pid files' request)
    (hnext : ∀ files' random value, Rely pid files files' → files'.Sound library →
      files'.killed pid = false → (files'.perform pid random request).1 = some value →
      (files'.perform pid random request).2.Sound library →
      SafeTask library pid (next value) (files'.perform pid random request).2 post) :
    SafeTask library pid ((attempt request).bind next) files post := by
  intro files' hrely hsound
  refine ⟨hlegit files' hrely hsound, fun choice hsound' => ?_⟩
  unfold Files.serve at hsound' ⊢
  split
  · exact hos _
  next hkilled =>
    have halive : files'.killed pid = false := Bool.eq_false_iff.mpr hkilled
    rw [if_neg hkilled] at hsound'
    cases hfate : choice.fate with
    | failed landed => exact hos _
    | done =>
      rw [hfate] at hsound'
      dsimp only at hsound' ⊢
      cases hreply : (files'.perform pid choice.random request).1 with
      | none => exact hos _
      | some value => exact hnext files' choice.random value hrely hsound halive hreply hsound'

theorem attempt_bind_ret (request : Request) : (attempt request).bind .ret = attempt request := by
  change Prog.ask request _ = Prog.ask request _
  congr 1
  funext reply
  cases reply with
  | none => rfl
  | some value => rfl

/-- A quiet request that may always be asked for. -/
theorem gives_attempt (hquiet : request.Quiet)
    (hlegit : ∀ files', Legit library pid files' request) (hos : bad .os) :
    SafeTask library pid (attempt request) files
      (Gives library pid files (fun files' value => request.Tells files' value) bad) := by
  have hsafe : SafeTask library pid ((attempt request).bind .ret) files
      (Gives library pid files (fun files' value => request.Tells files' value) bad) :=
    safe_attempt (fun _ => hos) (fun files' _ _ => hlegit files')
      fun files' random value hrely _ _ hreply hsound' =>
        ⟨hrely.trans (Files.rely_quiet hquiet pid), hsound', Files.tells_perform hquiet hreply⟩
  rwa [attempt_bind_ret] at hsafe

theorem SafeTask.andThen {program : Secret α} {next : α → Secret β}
    (hsafe : SafeTask library pid program files (Gives library pid files good bad))
    (hbad : ∀ files' fault, bad fault → post files' (.error fault))
    (hnext : ∀ files' value, Rely pid files files' → files'.Sound library → good files' value →
      SafeTask library pid (next value) files' post) :
    SafeTask library pid (program.bind next) files post := by
  refine Safe.bind (hsafe.mono fun files' outcome hgives => ?_)
  cases outcome with
  | ok value => exact hnext files' value hgives.1 hgives.2.1 hgives.2.2
  | error fault => exact hbad files' fault hgives

/-- What a program gives, counted from earlier files. -/
theorem SafeTask.since {program : Secret α} {good' : Files → α → Prop} {bad' : Fault → Prop}
    (hsafe : SafeTask library pid program files' (Gives library pid files' good bad))
    (hrely : Rely pid files files') (hgood : ∀ files'' value, good files'' value → good' files'' value)
    (hbad : ∀ fault, bad fault → bad' fault) :
    SafeTask library pid program files' (Gives library pid files good' bad') := by
  refine Safe.mono hsafe fun files'' outcome hgives => ?_
  cases outcome with
  | ok value => exact ⟨hrely.trans hgives.1, hgives.2.1, hgood files'' value hgives.2.2⟩
  | error fault => exact hbad fault hgives

/-! ## The key -/

/-- What the system, and who keeps the files, may bring about. -/
def Fault.Outer : Fault → Prop
  | .os | .mode _ | .length _ | .dangling => True
  | _ => False

/-- The fault is none of the store's: there was no key. -/
def Keyless (files : Files) (fault : Fault) : Prop :=
  fault.Outer ∨ fault = .noKeyfile ∧ ∀ key, ¬ files.Keyed key

theorem gives_readKeyfile :
    SafeTask library pid readKeyfile files (Gives library pid files Files.Keyed Fault.Outer) := by
  refine SafeTask.andThen (gives_attempt trivial (fun _ => trivial) trivial) (fun _ _ h => h) ?_
  intro files₁ mode hrely₁ hsound₁ _
  split
  · trivial
  · refine SafeTask.andThen (gives_attempt trivial (fun _ => trivial) trivial) (fun _ _ h => h) ?_
    intro files₂ key hrely₂ hsound₂ hfile
    split
    · trivial
    next hlength =>
      exact ⟨hrely₁.trans hrely₂, hsound₂, not_not.mp hlength, hfile⟩

theorem gives_loadKey :
    SafeTask library pid loadKey files (Gives library pid files Files.Keyed (Keyless files)) := by
  refine SafeTask.andThen (gives_attempt trivial (fun _ => trivial) (.inl trivial))
    (fun _ _ h => h) ?_
  intro files₁ found hrely₁ hsound₁ hfound
  split
  · exact gives_readKeyfile.since hrely₁ (fun _ _ h => h) fun _ => .inl
  next hmissing =>
    refine .inr ⟨rfl, fun key hkeyed => ?_⟩
    obtain ⟨-, mode, hfile⟩ := hkeyed.rely hrely₁
    rw [hfound, hfile] at hmissing
    exact hmissing rfl

theorem gives_loadOrCreateKey : SafeTask library pid loadOrCreateKey files
    (Gives library pid files Files.Keyed Fault.Outer) := by
  refine SafeTask.andThen (gives_attempt trivial (fun _ => trivial) trivial) (fun _ _ h => h) ?_
  intro files₁ found hrely₁ hsound₁ _
  split
  · exact gives_readKeyfile.since hrely₁ (fun _ _ h => h) fun _ h => h
  · refine SafeTask.andThen (gives_attempt trivial (fun _ => trivial) trivial) (fun _ _ h => h) ?_
    intro files₂ key hrely₂ hsound₂ _
    refine SafeTask.andThen (gives_attempt trivial (fun _ => key.property) trivial)
      (fun _ _ h => h) ?_
    intro files₃ linked hrely₃ hsound₃ hlinked
    have hrely := (hrely₁.trans hrely₂).trans hrely₃
    split
    next hpublished => exact ⟨hrely, hsound₃, key.property, hlinked hpublished⟩
    · refine SafeTask.andThen (gives_attempt trivial (fun _ => trivial) trivial) (fun _ _ h => h) ?_
      intro files₄ again hrely₄ hsound₄ _
      split
      · exact gives_readKeyfile.since (hrely.trans hrely₄) (fun _ _ h => h) fun _ h => h
      · trivial

/-! ## The store -/

/-- What is read is what was written up to some moment: the last one, while the lock is held. -/
def Snapshot (pid : Pid) (files files' : Files) (values : Dict String String) : Prop :=
  ∃ earlier, earlier <+: files'.commits ∧ values = replay earlier ∧
    (files.holder = some pid → files'.killed pid ∨
      (files'.holder = some pid ∧ earlier = files'.commits))

theorem decryptBlob_encryptBlob (hlawful : library.Lawful) {nonce data aad : Bytes}
    (hkey : key.length = keyBytes) (hnonce : nonce.length = nonceBytes) :
    decryptBlob library key (encryptBlob library key nonce data aad) aad = some data := by
  unfold decryptBlob encryptBlob
  rw [List.take_left' hnonce, List.drop_left' hnonce]
  exact hlawful.decrypt_encrypt key nonce data aad hkey hnonce

theorem gives_loadStore (hlawful : library.Lawful) :
    SafeTask library pid (loadStore library) files (Gives library pid files (fun files' found =>
      Snapshot pid files files' found.1 ∧ ∀ key, found.2 = some key → files'.Keyed key)
      Fault.Outer) := by
  refine SafeTask.andThen (gives_attempt trivial (fun _ => trivial) trivial) (fun _ _ h => h) ?_
  intro files₁ found hrely₁ hsound₁ hfound
  split
  · refine SafeTask.andThen (gives_attempt trivial (fun _ => trivial) trivial) (fun _ _ h => h) ?_
    intro files₂ blob hrely₂ hsound₂ hblob
    obtain ⟨key, hkeyed, nonce, hnonce, hstored⟩ := hsound₂.opens blob hblob
    have hmagic : storeMagic.isPrefixOf blob = true := by
      rw [hstored]
      exact List.isPrefixOf_iff_prefix.mpr (List.prefix_append ..)
    rw [hmagic]
    refine SafeTask.andThen gives_loadKey ?_ ?_
    · rintro _ fault (houter | ⟨-, hnone⟩)
      · exact houter
      · exact (hnone key hkeyed).elim
    · intro files₃ key' hrely₃ hsound₃ hkeyed'
      have hsame : key' = key := hkeyed'.unique (hkeyed.rely hrely₃)
      have hopened : decryptBlob library key' (blob.drop storeMagic.length) storeAad =
          some (library.dumps (replay files₂.commits)) := by
        rw [hsame, hstored, storeBlob, List.drop_left]
        exact decryptBlob_encryptBlob hlawful hkeyed.1 hnonce
      rw [hopened]
      dsimp only
      rw [hlawful.loads_dumps]
      refine ⟨(hrely₁.trans hrely₂).trans hrely₃, hsound₃, ⟨_, hrely₃.commits, rfl, ?_⟩, ?_⟩
      · intro hheld
        rcases (hrely₁.trans hrely₂).held hheld with hkilled | ⟨hstill, -⟩
        · exact .inl (hrely₃.killed hkilled)
        · exact (hrely₃.held hstill).imp id fun hagain => ⟨hagain.1, hagain.2.symm⟩
      · intro other hother
        cases hother
        exact hkeyed'
  next hmissing =>
    have hstore : files₁.store = none := by
      rw [← Option.not_isSome_iff_eq_none, ← hfound]
      exact hmissing
    refine ⟨hrely₁, hsound₁, ⟨[], List.nil_prefix, rfl, fun hheld => ?_⟩,
      fun _ hnone => by cases hnone⟩
    exact (hrely₁.held hheld).imp id fun hstill => ⟨hstill.1, (hsound₁.fresh hstore).symm⟩

/-- The change is among what was written. -/
def Written (change : Change) (files : Files) : Except Fault Unit → Prop
  | .ok _ => change ∈ files.commits
  | .error fault => fault.Outer

/-- The values are those the change makes of the store, unless nothing is written any more. -/
def Ready (pid : Pid) (values : Dict String String) (change : Change) (files : Files) : Prop :=
  files.killed pid ∨ (files.holder = some pid ∧ values = Change.apply (replay files.commits) change)

theorem Ready.rely {values : Dict String String} {change : Change}
    (hready : Ready pid values change files) (hrely : Rely pid files files') :
    Ready pid values change files' := by
  rcases hready with hkilled | ⟨hheld, hvalues⟩
  · exact .inl (hrely.killed hkilled)
  · refine (hrely.held hheld).imp id fun hstill => ⟨hstill.1, ?_⟩
    rw [hstill.2]
    exact hvalues

theorem gives_cachedKey {cached : Option Bytes} (hsound : files.Sound library)
    (hcached : ∀ key, cached = some key → files.Keyed key) :
    SafeTask library pid (cachedKey cached) files
      (Gives library pid files Files.Keyed Fault.Outer) := by
  cases cached with
  | none => exact gives_loadOrCreateKey
  | some key => exact ⟨Rely.refl pid files, hsound, hcached key rfl⟩

/-- A store that is still the one that was read is replaced by what the change makes of it. -/
theorem written_saveStore {values : Dict String String} {cached : Option Bytes} {change : Change}
    (hsound : files.Sound library) (hcached : ∀ key, cached = some key → files.Keyed key)
    (hready : Ready pid values change files) :
    SafeTask library pid (saveStore library values cached change) files (Written change) := by
  refine SafeTask.andThen (gives_cachedKey hsound hcached) (fun _ _ h => h) ?_
  intro files₁ key hrely₁ hsound₁ hkeyed
  refine SafeTask.andThen (gives_attempt trivial (fun _ => trivial) trivial) (fun _ _ h => h) ?_
  intro files₂ nonce hrely₂ hsound₂ _
  rw [← attempt_bind_ret]
  refine safe_attempt (fun _ => trivial) ?_ ?_
  · intro files₃ hrely₃ hsound₃
    refine (((hready.rely hrely₁).rely hrely₂).rely hrely₃).imp id fun hnow => ⟨hnow.1, key, ?_, ?_⟩
    · exact (hkeyed.rely hrely₂).rely hrely₃
    · exact ⟨nonce.val, nonce.property, by rw [hnow.2]⟩
  · intro files₃ random value hrely₃ _ _ _ _
    exact List.mem_append_right _ (List.mem_singleton_self change)

/-! ## The lock -/

/-- A program that is given the lock, and keeps to its promise however much is written after. -/
theorem safe_locked {program : Secret α} {post : Files → Except Fault α → Prop}
    (hlater : ∀ files files' outcome, files.commits <+: files'.commits → post files outcome →
      post files' outcome)
    (hos : ∀ files, post files (.error .os))
    (hprogram : ∀ files', files'.Sound library → files'.holder = some pid →
      SafeTask library pid program files' post) :
    SafeTask library pid (locked program) files post := by
  have hheld : SafeTask library pid ((attempt .lock).bind fun _ => program) files post := by
    refine safe_attempt hos (fun _ _ _ => trivial) ?_
    intro files₁ random value hrely₁ hsound₁ _ hreply hsound₂
    refine hprogram _ hsound₂ ?_
    change (files₁.taken pid).1 = some value at hreply
    change (files₁.taken pid).2.holder = some pid
    rcases files₁.taken_cases pid with ⟨-, htaken⟩ | htaken
    · rw [htaken]
    · rw [htaken] at hreply
      cases hreply
  refine Safe.bind (Safe.outcome (hheld.mono fun files₁ outcome hpost => ?_))
  refine safe_attempt hos (fun _ _ _ => trivial) ?_
  intro files₂ random value hrely₂ _ _ _ _
  have hreleased : (files₂.released pid).commits = files₂.commits := by
    rcases files₂.released_cases pid with ⟨-, hdone⟩ | hdone
    · rw [hdone]
    · rw [hdone]
  have hgrown : files₁.commits <+: (files₂.released pid).commits := by
    rw [hreleased]
    exact hrely₂.commits
  cases outcome with
  | ok found => exact hlater _ _ _ hgrown hpost
  | error fault => exact hlater _ _ _ hgrown hpost

/-! ## What a call comes to -/

/-- The values the store has held at some moment. -/
def Files.Once (files : Files) (about : Dict String String → Prop) : Prop :=
  ∃ earlier, earlier <+: files.commits ∧ about (replay earlier)

/-- What is said of a call that has ended, on the files at that time or later. -/
def Met (library : Library) (files : Files) : Call → Except Fault Result → Prop
  | .set name value, .ok .done => Change.set name value ∈ files.commits
  | .delete name, .ok (.deleted true) => Change.delete name ∈ files.commits
  | .delete name, .ok (.deleted false) => files.Once fun values => name ∉ values
  | .resolve name, .ok (.value value) => files.Once fun values => values[name]? = some value
  | .resolve name, .error (.notFound missing) =>
    missing = name ∧ files.Once fun values => name ∉ values
  | .names, .ok (.names names) => files.Once fun values => names = values.keys
  | .sealValue value, .ok (.sealed payload) =>
    ∃ key nonce, files.Keyed key ∧ nonce.length = nonceBytes ∧
      payload = sealedText library key nonce value
  | .unsealValue payload, outcome => ∀ (key nonce : Bytes) (value : String),
    key.length = keyBytes → nonce.length = nonceBytes →
      payload = sealedText library key nonce value →
        (∃ fault, outcome = .error fault ∧ (fault.Outer ∨ fault = .noKeyfile)) ∨
          ∃ own, files.Keyed own ∧ (own = key → outcome = .ok (.value value))
  | .saltFor _, .ok (.salt found) => ∃ key, files.Keyed key ∧ found = salt library key
  | .saltFor _, .error fault => fault.Outer ∨ fault = .noKeyfile
  | _, .ok _ => False
  | _, .error fault => fault.Outer

theorem met_outer {call : Call} {fault : Fault} (houter : fault.Outer) :
    Met library files call (.error fault) := by
  cases call with
  | unsealValue payload => exact fun _ _ _ _ _ _ => .inl ⟨fault, rfl, .inl houter⟩
  | saltFor create => exact .inl houter
  | _ =>
    cases fault with
    | notFound name => exact houter.elim
    | _ => exact houter

theorem Files.Once.later {about : Dict String String → Prop} (honce : files.Once about)
    (hcommits : files.commits <+: files'.commits) : files'.Once about := by
  obtain ⟨earlier, hprefix, habout⟩ := honce
  exact ⟨earlier, hprefix.trans hcommits, habout⟩

/-- What is said of a call goes on to hold. -/
theorem Met.later {call : Call} {outcome : Except Fault Result} (hmet : Met library files call outcome)
    (hcommits : files.commits <+: files'.commits)
    (hkeys : ∀ key, files.Keyed key → files'.Keyed key) : Met library files' call outcome := by
  cases call with
  | unsealValue payload =>
    intro key nonce value hkey hnonce hpayload
    refine (hmet key nonce value hkey hnonce hpayload).imp id ?_
    rintro ⟨own, hown, hvalue⟩
    exact ⟨own, hkeys own hown, hvalue⟩
  | set name value =>
    cases outcome with
    | error fault => exact hmet
    | ok result =>
      cases result with
      | done => exact hcommits.subset hmet
      | _ => exact hmet.elim
  | delete name =>
    cases outcome with
    | error fault => exact hmet
    | ok result =>
      cases result with
      | deleted found =>
        cases found with
        | true => exact hcommits.subset hmet
        | false =>
          have honce : files.Once fun values => name ∉ values := hmet
          exact honce.later hcommits
      | _ => exact hmet.elim
  | resolve name =>
    cases outcome with
    | error fault =>
      cases fault with
      | notFound missing => exact ⟨hmet.1, Files.Once.later hmet.2 hcommits⟩
      | _ => exact hmet
    | ok result =>
      cases result with
      | value found =>
        have honce : files.Once fun values => values[name]? = some found := hmet
        exact honce.later hcommits
      | _ => exact hmet.elim
  | names =>
    cases outcome with
    | error fault => exact hmet
    | ok result =>
      cases result with
      | names found =>
        have honce : files.Once fun values => found = values.keys := hmet
        exact honce.later hcommits
      | _ => exact hmet.elim
  | sealValue value =>
    cases outcome with
    | error fault => exact hmet
    | ok result =>
      cases result with
      | sealed payload =>
        obtain ⟨key, nonce, hkeyed, hsealed⟩ := hmet
        exact ⟨key, nonce, hkeys key hkeyed, hsealed⟩
      | _ => exact hmet.elim
  | saltFor create =>
    cases outcome with
    | error fault => exact hmet
    | ok result =>
      cases result with
      | salt found =>
        obtain ⟨key, hkeyed, hfound⟩ := hmet
        exact ⟨key, hkeys key hkeyed, hfound⟩
      | _ => exact hmet.elim

/-! ## The calls -/

theorem Snapshot.once {values : Dict String String} (hsnapshot : Snapshot pid files files' values) :
    files'.Once fun found => found = values := by
  obtain ⟨earlier, hprefix, hvalues, -⟩ := hsnapshot
  exact ⟨earlier, hprefix, hvalues.symm⟩

theorem Snapshot.ready {values : Dict String String} (hsnapshot : Snapshot pid files files' values)
    (hheld : files.holder = some pid) (change : Change) :
    Ready pid (Change.apply values change) change files' := by
  obtain ⟨earlier, -, hvalues, hnow⟩ := hsnapshot
  refine (hnow hheld).imp id fun hstill => ⟨hstill.1, ?_⟩
  rw [hvalues, hstill.2]

/-- A change of the store, made while it is locked. -/
theorem safe_change (hlawful : library.Lawful) {post : Files → Except Fault Result → Prop}
    {next : Dict String String × Option Bytes → Secret Result}
    (hlater : ∀ files files' outcome, files.commits <+: files'.commits → post files outcome →
      post files' outcome)
    (houter : ∀ files fault, fault.Outer → post files (.error fault))
    (hnext : ∀ files files' found, files.holder = some pid → files'.Sound library →
      Snapshot pid files files' found.1 → (∀ key, found.2 = some key → files'.Keyed key) →
      SafeTask library pid (next found) files' post) :
    SafeTask library pid (locked ((loadStore library).bind next)) files post := by
  refine safe_locked hlater (fun files => houter files .os trivial) fun files₁ _ hheld => ?_
  refine SafeTask.andThen (gives_loadStore hlawful) houter ?_
  exact fun files₂ found _ hsound₂ hfound => hnext files₁ files₂ found hheld hsound₂ hfound.1 hfound.2

/-- The change written, and the answer given. -/
theorem safe_save {post : Files → Except Fault Result → Prop} {values : Dict String String}
    {cached : Option Bytes} {change : Change} {answer : Result} (hsound : files.Sound library)
    (hcached : ∀ key, cached = some key → files.Keyed key)
    (hready : Ready pid values change files)
    (houter : ∀ files fault, fault.Outer → post files (.error fault))
    (hwritten : ∀ files, change ∈ files.commits → post files (.ok answer)) :
    SafeTask library pid ((saveStore library values cached change).bind fun _ => .ret answer) files
      post := by
  refine Safe.bind ((written_saveStore hsound hcached hready).mono fun files₁ outcome hpost => ?_)
  cases outcome with
  | ok _ => exact hwritten files₁ hpost
  | error fault => exact houter files₁ fault hpost

theorem safe_set (hlawful : library.Lawful) (name value : String) :
    SafeTask library pid (setSecret library name value) files
      fun files' outcome => Met library files' (.set name value) outcome := by
  refine safe_change hlawful ?_ (fun _ _ => met_outer) ?_
  · intro files₁ files₂ outcome hcommits hmet
    cases outcome with
    | error fault => exact hmet
    | ok result =>
      cases result with
      | done => exact hcommits.subset hmet
      | _ => exact hmet.elim
  · rintro files₁ files₂ ⟨values, cached⟩ hheld hsound hsnapshot hcached
    exact safe_save hsound hcached (hsnapshot.ready hheld (.set name value)) (fun _ _ => met_outer)
      fun _ hmem => hmem

theorem safe_delete (hlawful : library.Lawful) (name : String) :
    SafeTask library pid (deleteSecret library name) files
      fun files' outcome => Met library files' (.delete name) outcome := by
  refine safe_change hlawful ?_ (fun _ _ => met_outer) ?_
  · intro files₁ files₂ outcome hcommits hmet
    cases outcome with
    | error fault => exact hmet
    | ok result =>
      cases result with
      | deleted found =>
        cases found with
        | true => exact hcommits.subset hmet
        | false =>
          have honce : files₁.Once fun values => name ∉ values := hmet
          exact honce.later hcommits
      | _ => exact hmet.elim
  · rintro files₁ files₂ ⟨values, cached⟩ hheld hsound hsnapshot hcached
    dsimp only
    split
    · exact safe_save hsound hcached (hsnapshot.ready hheld (.delete name)) (fun _ _ => met_outer)
        fun _ hmem => hmem
    next hmissing =>
      obtain ⟨earlier, hprefix, hvalues⟩ := hsnapshot.once
      exact ⟨earlier, hprefix, by rw [hvalues]; exact hmissing⟩

theorem safe_resolve (hlawful : library.Lawful) (name : String) :
    SafeTask library pid (resolveSecret library name) files
      fun files' outcome => Met library files' (.resolve name) outcome := by
  refine SafeTask.andThen (gives_loadStore hlawful) (fun _ _ => met_outer) ?_
  rintro files₁ ⟨values, cached⟩ _ _ ⟨hsnapshot, -⟩
  obtain ⟨earlier, hprefix, hvalues⟩ := hsnapshot.once
  dsimp only
  cases hfound : values[name]? with
  | some value => exact ⟨earlier, hprefix, by rw [hvalues]; exact hfound⟩
  | none =>
    refine ⟨rfl, earlier, hprefix, fun hmem => ?_⟩
    rw [hvalues, Std.ExtTreeMap.mem_iff_isSome_getElem?, hfound] at hmem
    cases hmem

theorem safe_names (hlawful : library.Lawful) :
    SafeTask library pid (secretNames library) files
      fun files' outcome => Met library files' .names outcome := by
  refine SafeTask.andThen (gives_loadStore hlawful) (fun _ _ => met_outer) ?_
  rintro files₁ ⟨values, cached⟩ _ _ ⟨hsnapshot, -⟩
  obtain ⟨earlier, hprefix, hvalues⟩ := hsnapshot.once
  exact ⟨earlier, hprefix, by rw [hvalues]⟩

theorem safe_seal (value : String) :
    SafeTask library pid (sealValue library value) files
      fun files' outcome => Met library files' (.sealValue value) outcome := by
  refine SafeTask.andThen gives_loadOrCreateKey (fun _ _ => met_outer) ?_
  intro files₁ key hrely₁ _ hkeyed
  refine SafeTask.andThen (gives_attempt trivial (fun _ => trivial) trivial)
    (fun _ _ => met_outer) ?_
  intro files₂ nonce hrely₂ _ _
  exact ⟨key, nonce.val, hkeyed.rely hrely₂, nonce.property, rfl⟩

/-- What a fault says of a call for the salt. -/
theorem met_keyless {create : Bool} {fault : Fault} (hkeyless : Keyless files fault) :
    Met library files' (.saltFor create) (.error fault) :=
  hkeyless.imp id And.left

theorem gives_keyFor (create : Bool) : SafeTask library pid (keyFor create) files
    (Gives library pid files Files.Keyed (Keyless files)) := by
  cases create with
  | true => exact gives_loadOrCreateKey.since (Rely.refl pid files) (fun _ _ h => h) fun _ => .inl
  | false => exact gives_loadKey

theorem safe_salt (create : Bool) :
    SafeTask library pid (saltFor library create) files
      fun files' outcome => Met library files' (.saltFor create) outcome := by
  have hkey (files₁ : Files) : SafeTask library pid ((keyFor create).bind fun key =>
      (.ret (.salt (salt library key)) : Secret Result)) files₁
        fun files' outcome => Met library files' (.saltFor create) outcome :=
    SafeTask.andThen (gives_keyFor create) (fun _ _ => met_keyless)
      fun _ key _ _ hkeyed => ⟨key, hkeyed, rfl⟩
  unfold saltFor
  split
  · refine SafeTask.andThen (gives_attempt trivial (fun _ => trivial) trivial)
      (fun _ _ => met_outer) ?_
    intro files₁ found _ _ _
    split
    · exact .inr rfl
    · exact hkey files₁
  · exact hkey files

/-- A sealed text is taken apart again. -/
theorem sealed_parts (hlawful : library.Lawful) (key nonce : Bytes) (value : String) :
    sealPrefix.toList.isPrefixOf (sealedText library key nonce value).toList = true ∧
      library.unbase64 (String.ofList ((sealedText library key nonce value).toList.drop
        sealPrefix.toList.length)) =
          some (encryptBlob library key nonce (library.utf8 value) sealAad) := by
  have hlist : (sealedText library key nonce value).toList = sealPrefix.toList ++
      (library.base64 (encryptBlob library key nonce (library.utf8 value) sealAad)).toList :=
    String.toList_append ..
  rw [hlist]
  constructor
  · exact List.isPrefixOf_iff_prefix.mpr (List.prefix_append ..)
  · rw [List.drop_left, String.ofList_toList]
    exact hlawful.unbase64_base64 _

theorem safe_unseal (hlawful : library.Lawful) (payload : String) :
    SafeTask library pid (unsealValue library payload) files
      fun files' outcome => Met library files' (.unsealValue payload) outcome := by
  unfold unsealValue
  split
  next hlegacy =>
    intro key nonce value _ _ hpayload
    rw [hpayload, (sealed_parts hlawful key nonce value).1] at hlegacy
    cases hlegacy
  next =>
    cases hblob : library.unbase64
        (String.ofList (payload.toList.drop sealPrefix.toList.length)) with
    | none =>
      intro key nonce value _ _ hpayload
      rw [hpayload, (sealed_parts hlawful key nonce value).2] at hblob
      cases hblob
    | some blob =>
      refine SafeTask.andThen gives_loadKey ?_ ?_
      · intro _ fault hkeyless key nonce value _ _ _
        exact .inl ⟨fault, rfl, hkeyless.imp id And.left⟩
      · intro files₁ own _ _ hown
        have hopened : ∀ key nonce value, key.length = keyBytes → nonce.length = nonceBytes →
            payload = sealedText library key nonce value → own = key →
              decryptBlob library own blob sealAad = some (library.utf8 value) := by
          intro key nonce value hkey hnonce hpayload hsame
          rw [hpayload, (sealed_parts hlawful key nonce value).2] at hblob
          cases hblob
          rw [hsame]
          exact decryptBlob_encryptBlob hlawful hkey hnonce
        cases hraw : decryptBlob library own blob sealAad with
        | none =>
          intro key nonce value hkey hnonce hpayload
          refine .inr ⟨own, hown, fun hsame => ?_⟩
          rw [hopened key nonce value hkey hnonce hpayload hsame] at hraw
          cases hraw
        | some raw =>
          dsimp only
          cases htext : library.text raw with
          | none =>
            intro key nonce value hkey hnonce hpayload
            refine .inr ⟨own, hown, fun hsame => ?_⟩
            rw [hopened key nonce value hkey hnonce hpayload hsame] at hraw
            cases hraw
            rw [hlawful.text_utf8] at htext
            cases htext
          | some found =>
            intro key nonce value hkey hnonce hpayload
            refine .inr ⟨own, hown, fun hsame => ?_⟩
            rw [hopened key nonce value hkey hnonce hpayload hsame] at hraw
            cases hraw
            rw [hlawful.text_utf8] at htext
            cases htext
            rfl

theorem safe_program (hlawful : library.Lawful) (call : Call) :
    SafeTask library pid (program library call) files
      fun files' outcome => Met library files' call outcome := by
  cases call with
  | set name value => exact safe_set hlawful name value
  | delete name => exact safe_delete hlawful name
  | resolve name => exact safe_resolve hlawful name
  | names => exact safe_names hlawful
  | sealValue value => exact safe_seal value
  | unsealValue payload => exact safe_unseal hlawful payload
  | saltFor create => exact safe_salt create

/-! ## Every run -/

theorem disciplined (hlawful : library.Lawful) : System.Disciplined (processes library)
    (Files.Sound library) Rely (Legit library)
    (fun _ call files outcome => Met library files call outcome) where
  rely_refl := Rely.refl
  rely_trans _ _ _ _ := Rely.trans
  inv_env event _ hsound := Files.sound_outside hsound event
  rely_env pid event _ _ := Files.rely_outside event pid
  inv_serve _ choice _ _ hsound hlegit := Files.sound_serve hsound hlegit choice
  rely_serve _ _ choice _ _ hne _ hlegit := Files.rely_serve hne hlegit choice
  start _ call _ _ := safe_program hlawful call

namespace FirstRuns

def utf8 (text : String) : Bytes := text.toByteArray.data.toList

def readUtf8 (bytes : Bytes) : Option String := String.fromUTF8? ⟨bytes.toArray⟩

theorem readUtf8_utf8 (text : String) : readUtf8 (utf8 text) = some text := by
  simp [readUtf8, utf8, String.fromUTF8?, text.isValidUTF8, String.fromUTF8]

/-- The canonical text of a table of texts. -/
def table (values : Dict String String) : Bytes :=
  utf8 (String.ofList (Value.dict (values.toList.map fun entry => (entry.1, .str entry.2))).text)

theorem table_injective {values others : Dict String String} (hsame : table values = table others) :
    values = others := by
  have hprinted (fields : List (String × String)) :
      (Value.dict (fields.map fun entry => (entry.1, .str entry.2))).FloatsPrinted := by
    rw [Value.FloatsPrinted, Value.any_eq, Bool.or_eq_false_iff, List.any_eq_false]
    refine ⟨rfl, fun child hchild => ?_⟩
    obtain ⟨entry, hentry, hvalue⟩ := List.mem_map.mp hchild
    obtain ⟨source, -, hsource⟩ := List.mem_map.mp hentry
    rw [← hvalue, ← hsource, Value.any_eq]
    exact Bool.false_ne_true
  have htexts := congrArg readUtf8 hsame
  rw [table, table, readUtf8_utf8, readUtf8_utf8, Option.some.injEq, String.ofList_inj] at htexts
  have hfields := Value.text_injective (hprinted _) (hprinted _) htexts
  rw [Value.dict.injEq] at hfields
  have hpair : Function.Injective fun entry : String × String => (entry.1, Value.str entry.2) := by
    rintro ⟨name, value⟩ ⟨name', value'⟩ heq
    simpa using heq
  rw [← ofList_toList values, ← ofList_toList others, List.map_injective_iff.mpr hpair hfields]

open Classical in
/-- A library that hides nothing. -/
noncomputable def plain : Library where
  encrypt _ _ data _ := data
  decrypt _ _ data _ := some data
  sha256 data := data
  dumps := table
  loads bytes := if h : ∃ values, table values = bytes then some (some h.choose) else none
  base64 data := String.ofList (data.map fun byte => Char.ofNat byte.toNat)
  unbase64 text := some (text.toList.map fun c => c.toNat.toUInt8)
  utf8 := utf8
  text := readUtf8

theorem plain_lawful : plain.Lawful where
  decrypt_encrypt _ _ _ _ _ _ := rfl
  loads_dumps values := by
    have hex : ∃ others, table others = table values := ⟨values, rfl⟩
    unfold plain
    dsimp only
    rw [dif_pos hex, table_injective hex.choose_spec]
  unbase64_base64 data := by
    change some ((String.ofList (data.map fun byte => Char.ofNat byte.toNat)).toList.map
      fun c => c.toNat.toUInt8) = some data
    rw [String.toList_ofList, List.map_map]
    refine congrArg some (List.map_id'' (fun byte => ?_) data)
    have hsmall : byte.toNat < 256 := byte.toNat_lt
    have hvalid : byte.toNat.isValidChar := .inl (by omega)
    change (Char.ofNat byte.toNat).toNat.toUInt8 = byte
    rw [Char.ofNat, dif_pos hvalid]
    exact UInt8.ofNat_toNat
  text_utf8 := readUtf8_utf8

def choice (byte : UInt8) : Choice where
  random count := ⟨List.replicate count byte, List.length_replicate ..⟩

/-- Both find no key; the second is the first to link its own. -/
def acts : List (System.Act Pid Choice Outside Call) :=
  [.start 1 (.set "db" "x"), .start 2 (.sealValue "y")] ++
    ([1, 2, 1, 1, 1, 2, 2, 1, 1, 1, 1, 1, 2, 1, 1].map fun pid => .serve pid (choice pid.toUInt8))

end FirstRuns

end Atlantide.Secrets
