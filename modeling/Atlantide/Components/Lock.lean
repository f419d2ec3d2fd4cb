import Atlantide.Core.Value
import Atlantide.Lib.Fallible
import Atlantide.Lib.Joins
import Atlantide.Lib.Toml

/-! # `atlantide.lock`

The resolved pins of the published components. The file is written by hand and read by a TOML
reader, one table `[components.<alias>]` for an entry. -/

namespace Atlantide.Components

open Toml Joins

structure LockEntry where
  git : String
  commit : String
  hash : String
  subdir : Option String := none
  deriving DecidableEq, Repr

inductive LockError
  | invalidToml
  | malformed (name : String)
  deriving DecidableEq, Repr

/-- `_ALIAS_RE` -/
def isAlias (name : String) : Bool :=
  match name.toList with
  | [] => false
  | c :: rest => c.isAlpha && rest.all fun c => c.isAlphanum || c = '_'

/-- `_HEADER` -/
def lockHeader : List Char :=
  ("# atlantide.lock — resolved component pins (generated; do not edit by hand)\n\n").toList

/-- `str.replace`, of one character. -/
def replace (old : Char) (new text : List Char) : List Char :=
  text.flatMap fun c => if c = old then new else [c]

def tomlString (value : String) : List Char :=
  let escaped := replace '\\' ['\\', '\\'] value.toList
  let escaped := replace '"' ['\\', '"'] escaped
  let escaped := replace '\n' ['\\', 'n'] escaped
  let escaped := replace '\r' ['\\', 'r'] escaped
  let escaped := replace '\t' ['\\', 't'] escaped
  '"' :: escaped ++ ['"']

def entryToToml (name : String) (entry : LockEntry) : List Char :=
  let lines := [
    "[components.".toList ++ name.toList ++ "]".toList,
    "git = ".toList ++ tomlString entry.git,
    "commit = ".toList ++ tomlString entry.commit,
    "hash = ".toList ++ tomlString entry.hash]
  let lines := match entry.subdir with
    | some subdir => lines ++ ["subdir = ".toList ++ tomlString subdir]
    | none => lines
  ['\n'].intercalate lines ++ ['\n']

def writeLock (entries : Dict String LockEntry) : List Char :=
  lockHeader ++ ['\n'].intercalate (entries.toList.map fun entry => entryToToml entry.1 entry.2)

/-- The text of a value that is one. -/
def textOf : Toml → Option String
  | .str text => some (String.ofList text)
  | .table _ => none

/-- `_is_lock_entry` and `_entry_from_toml` -/
def entryFromToml : Toml → Option LockEntry
  | .str _ => none
  | .table body => do
    let git ← (body.lookup "git".toList).bind textOf
    let commit ← (body.lookup "commit".toList).bind textOf
    let hash ← (body.lookup "hash".toList).bind textOf
    some ⟨git, commit, hash, (body.lookup "subdir".toList).bind textOf⟩

/-- `load_lock` of a file's text, where there is a file. -/
def loadLock : Option (List Char) → Except LockError (Dict String LockEntry)
  | none => .ok ∅
  | some text =>
    match Toml.load text with
    | none => .error .invalidToml
    | some document =>
      match document.lookup "components".toList with
      | some (.table tables) => do
        let entries ← tables.mapM fun (name, body) =>
          match entryFromToml body with
          | some entry => .ok (String.ofList name, entry)
          | none => .error (.malformed (String.ofList name))
        .ok (Std.ExtTreeMap.ofList entries compare)
      | _ => .ok ∅

/-! ## What is written -/

theorem replaced (text : List Char) :
    replace '\t' ['\\', 't'] (replace '\r' ['\\', 'r'] (replace '\n' ['\\', 'n']
      (replace '"' ['\\', '"'] (replace '\\' ['\\', '\\'] text)))) = text.flatMap escapeChar := by
  unfold replace
  simp only [List.flatMap_assoc]
  congr 1
  funext c
  by_cases hslash : c = '\\'
  · subst hslash
    rfl
  by_cases hquote : c = '"'
  · subst hquote
    rfl
  by_cases hfeed : c = '\n'
  · subst hfeed
    rfl
  by_cases hreturn : c = '\r'
  · subst hreturn
    rfl
  by_cases htab : c = '\t'
  · subst htab
    rfl
  have hplain : escapeChar c = [c] := by
    unfold escapeChar
    split
    all_goals first | contradiction | rfl
  simp [hslash, hquote, hfeed, hreturn, htab, hplain]

theorem tomlString_eq (value : String) :
    tomlString value = '"' :: (value.toList.flatMap escapeChar ++ ['"']) := by
  rw [tomlString]
  simp only [replaced, List.cons_append]

/-- The keys of an entry and what they are set to. -/
def LockEntry.fields (entry : LockEntry) : List (List Char × List Char) :=
  [("git".toList, entry.git.toList), ("commit".toList, entry.commit.toList),
    ("hash".toList, entry.hash.toList)] ++
    entry.subdir.toList.map fun subdir => ("subdir".toList, subdir.toList)

/-- The line that sets a key. -/
def fieldLine (field : List Char × List Char) : List Char :=
  field.1 ++ ' ' :: '=' :: ' ' :: '"' :: (field.2.flatMap escapeChar ++ ['"', '\n'])

theorem entryToToml_eq (name : String) (entry : LockEntry) :
    entryToToml name entry =
      '[' :: ("components".toList ++ '.' :: (name.toList ++ ']' :: '\n' ::
        entry.fields.flatMap fieldLine)) := by
  obtain ⟨git, commit, hash, subdir⟩ := entry
  cases subdir with
  | none => simp [entryToToml, tomlString_eq, LockEntry.fields, fieldLine, List.intercalate]
  | some subdir => simp [entryToToml, tomlString_eq, LockEntry.fields, fieldLine, List.intercalate]

/-- A text of an entry holds a character that is written as it is and that no reader takes. -/
def LockEntry.raw (entry : LockEntry) : Bool := entry.fields.any fun field => field.2.any isRaw

/-! ## What is read -/

def rootOf (tables : Table) : Table :=
  if tables = [] then [] else [("components".toList, .table tables)]

/-- The same, while the last of them is being filled. -/
def filling (tables : Table) (name : List Char) (body : Table) : Table :=
  [("components".toList, .table (tables ++ [(name, .table body)]))]

def LockEntry.toTable (entry : LockEntry) : Table :=
  entry.fields.map fun field => (field.1, .str field.2)

abbrev path (name : List Char) : List (List Char) := ["components".toList, name]

section

variable {tables : Table} {name : List Char} (hfresh : ∀ entry ∈ tables, entry.1 ≠ name)

include hfresh

theorem nested_header : nested some (path name) (rootOf tables) = some (filling tables name []) := by
  unfold rootOf path filling
  split
  · rename_i hnone
    subst hnone
    rfl
  · rw [← List.nil_append [("components".toList, Toml.table tables)],
      nested_last (List.forall_mem_nil _), nested_new hfresh]
    rfl

theorem nested_filling (change : Table → Option Table) (body : Table) :
    nested change (path name) (filling tables name body) =
      (change body).map (filling tables name) := by
  unfold path filling
  rw [← List.nil_append [("components".toList, Toml.table _)],
    nested_last (List.forall_mem_nil _), nested_last hfresh, nested, Option.map_map]
  rfl

theorem lines_fields {fields : List (List Char × List Char)} {document : Document} {body : Table}
    (hparts : ∀ field ∈ fields, IsPart field.1) (hdistinct : (fields.map Prod.fst).Nodup)
    (hnew : ∀ field ∈ fields, ∀ set ∈ body, set.1 ≠ field.1)
    (hheader : document.header = path name) (hroot : document.root = filling tables name body)
    (rounds : Nat) (rest : List Char) :
    lines (fields.length + rounds) document (fields.flatMap fieldLine ++ rest) =
      if fields.any (fun field => field.2.any isRaw) then none else
        lines rounds { document with
          root := filling tables name (body ++ fields.map fun field => (field.1, .str field.2)) }
          rest := by
  induction fields generalizing document body with
  | nil =>
    rw [List.map_nil, List.append_nil, ← hroot]
    simp
  | cons field fields ih =>
    obtain ⟨hpart, hparts⟩ := List.forall_mem_cons.mp hparts
    obtain ⟨hfirst, hrest⟩ := List.forall_mem_cons.mp hnew
    rw [List.map_cons, List.nodup_cons] at hdistinct
    have hshape : (field :: fields).flatMap fieldLine ++ rest = field.1 ++ ' ' :: '=' :: ' ' :: '"' ::
        (field.2.flatMap escapeChar ++ '"' :: '\n' :: (fields.flatMap fieldLine ++ rest)) := by
      simp [fieldLine]
    have hunset : (body.lookup field.1).isSome = false := by
      rw [← List.append_nil body, lookup_append_of_forall_ne hfirst]
      rfl
    have hset : nested (fun entries => if (entries.lookup field.1).isSome then none else
        some (entries ++ [(field.1, .str field.2)])) document.header document.root =
          some (filling tables name (body ++ [(field.1, .str field.2)])) := by
      rw [hheader, hroot, nested_filling hfresh]
      simp [hunset]
    rw [hshape, List.length_cons, Nat.add_right_comm, lines_pair _ _ _ hpart, hset, List.any_cons]
    cases field.2.any isRaw with
    | true => rfl
    | false =>
      have hnext := @ih { document with
        root := filling tables name (body ++ [(field.1, .str field.2)]) }
        (body ++ [(field.1, .str field.2)]) hparts hdistinct.2 ?_ hheader rfl
      · rw [Option.bind_some, if_neg Bool.false_ne_true, hnext, Bool.false_or, List.map_cons,
          List.append_assoc, List.singleton_append]
      · intro other hother set hset
        rcases List.mem_append.mp hset with hset | hset
        · exact hrest other hother set hset
        · rw [List.mem_singleton.mp hset]
          exact fun heq => hdistinct.1 (List.mem_map.mpr ⟨other, hother, heq.symm⟩)

/-- An entry line by line: it is the last table of what has been read then. -/
theorem lines_entry {document : Document} (hroot : document.root = rootOf tables)
    (hpart : IsPart name) (hnew : path name ∉ document.declared) (entry : LockEntry) (rounds : Nat)
    (rest : List Char) :
    lines (entry.fields.length + rounds + 1) document
        ('[' :: ("components".toList ++ '.' :: (name ++ ']' :: '\n' ::
          (entry.fields.flatMap fieldLine ++ rest)))) =
      if entry.raw then none else
        lines rounds ⟨rootOf (tables ++ [(name, .table entry.toTable)]), path name,
          path name :: document.declared⟩ rest := by
  have hparts : ∀ field ∈ entry.fields, IsPart field.1 := by
    obtain ⟨git, commit, hash, subdir⟩ := entry
    cases subdir with
    | none => simp [LockEntry.fields, IsPart, isBare]
    | some subdir => simp [LockEntry.fields, IsPart, isBare]
  have hdistinct : (entry.fields.map Prod.fst).Nodup := by
    obtain ⟨git, commit, hash, subdir⟩ := entry
    cases subdir with
    | none => simp [LockEntry.fields]
    | some subdir => simp [LockEntry.fields]
  rw [lines_header _ _ _ (by simp [IsPart, isBare]) hpart hnew]
  have hheader := nested_header hfresh
  rw [path, ← hroot] at hheader
  rw [hheader, Option.bind_some,
    @lines_fields tables name hfresh entry.fields ⟨filling tables name [], path name,
      path name :: document.declared⟩ [] hparts hdistinct
      (fun _ _ => List.forall_mem_nil _) rfl rfl]
  unfold LockEntry.raw
  cases entry.fields.any fun field => field.2.any isRaw with
  | true => rfl
  | false =>
    have hfilled : filling tables name entry.toTable =
        rootOf (tables ++ [(name, .table entry.toTable)]) := by
      rw [rootOf, if_neg (by simp), filling]
    rw [List.nil_append, ← hfilled]
    rfl

end

def tablesOf (entries : List (String × LockEntry)) : Table :=
  entries.map fun entry => (entry.1.toList, .table entry.2.toTable)

theorem lines_entries {entries : List (String × LockEntry)} {document : Document} {tables : Table}
    (hparts : ∀ entry ∈ entries, IsPart entry.1.toList) (hdistinct : (entries.map Prod.fst).Nodup)
    (hfresh : ∀ entry ∈ entries, ∀ table ∈ tables, table.1 ≠ entry.1.toList)
    (hnew : ∀ entry ∈ entries, path entry.1.toList ∉ document.declared)
    (hroot : document.root = rootOf tables) {rounds : Nat} (hrounds : 6 * entries.length < rounds) :
    (lines rounds document (['\n'].intercalate
      (entries.map fun entry => entryToToml entry.1 entry.2))).map (·.root) =
      if entries.any (fun entry => entry.2.raw) then none else
        some (rootOf (tables ++ tablesOf entries)) := by
  induction entries generalizing document tables rounds with
  | nil =>
    obtain ⟨left, rfl⟩ := Nat.exists_eq_add_of_lt hrounds
    simp [List.intercalate, lines, skipBlanks, tablesOf, hroot]
  | cons entry entries ih =>
    obtain ⟨hpart, hparts⟩ := List.forall_mem_cons.mp hparts
    obtain ⟨hfirst, hrest⟩ := List.forall_mem_cons.mp hfresh
    obtain ⟨hpath, hpaths⟩ := List.forall_mem_cons.mp hnew
    rw [List.map_cons, List.nodup_cons] at hdistinct
    have hlength : entry.2.fields.length ≤ 4 := by
      rw [LockEntry.fields, List.length_append, List.length_map]
      exact Nat.add_le_add_left (Option.length_toList_le) 3
    rw [List.length_cons] at hrounds
    obtain ⟨left, rfl⟩ : ∃ left, rounds = entry.2.fields.length + (left + 1) + 1 :=
      ⟨rounds - entry.2.fields.length - 2, by omega⟩
    have hread (rest : List Char) := lines_entry hfirst hroot hpart hpath entry.2 (left + 1) rest
    rw [List.map_cons, List.any_cons]
    cases entries with
    | nil =>
      have hone := hread []
      rw [List.append_nil, ← entryToToml_eq] at hone
      rw [List.map_nil, List.intercalate_singleton, hone]
      cases entry.2.raw with
      | true => rfl
      | false => rfl
    | cons next entries =>
      have hblock : ['\n'].intercalate (entryToToml entry.1 entry.2 ::
          (next :: entries).map fun entry => entryToToml entry.1 entry.2) =
            entryToToml entry.1 entry.2 ++ '\n' :: ['\n'].intercalate
              ((next :: entries).map fun entry => entryToToml entry.1 entry.2) := by
        rw [List.intercalate_cons_of_ne_nil (by simp)]
        simp
      have hmore := hread ('\n' :: ['\n'].intercalate
        ((next :: entries).map fun entry => entryToToml entry.1 entry.2))
      rw [hblock, entryToToml_eq]
      simp only [List.cons_append, List.append_assoc] at hmore ⊢
      rw [hmore]
      cases entry.2.raw with
      | true => rfl
      | false =>
        rw [if_neg Bool.false_ne_true, lines_blank, Bool.false_or,
          @ih _ (tables ++ [(entry.1.toList, .table entry.2.toTable)]) hparts hdistinct.2 ?_ ?_ rfl
            left (by omega)]
        · rw [tablesOf, List.map_cons, ← tablesOf, List.append_assoc]
          rfl
        · intro other hother table hmem
          rcases List.mem_append.mp hmem with hmem | hmem
          · exact hrest other hother table hmem
          · rw [List.mem_singleton.mp hmem]
            intro heq
            rw [String.toList_inj] at heq
            exact hdistinct.1 (List.mem_map.mpr ⟨other, hother, heq.symm⟩)
        · intro other hother
          rw [List.mem_cons, not_or]
          refine ⟨fun heq => ?_, hpaths other hother⟩
          have hsame := (List.cons.inj (List.cons.inj heq).2).1
          rw [String.toList_inj] at hsame
          exact hdistinct.1 (List.mem_map.mpr ⟨other, hother, hsame⟩)

/-! ## The file -/

theorem isPart_of_isAlias {name : String} (halias : isAlias name) : IsPart name.toList := by
  unfold isAlias at halias
  split at halias
  · cases halias
  · rename_i c rest htext
    rw [htext]
    rw [Bool.and_eq_true, List.all_eq_true] at halias
    refine ⟨List.cons_ne_nil _ _, List.forall_mem_cons.mpr ⟨?_, ?_⟩⟩
    · simp [isBare, Char.isAlphanum, halias.1]
    · intro other hmem
      have hother := halias.2 other hmem
      rw [Bool.or_eq_true] at hother
      rcases hother with hother | hother
      · simp [isBare, hother]
      · simp [isBare, of_decide_eq_true hother]

theorem not_mem_escapeChar (c : Char) : '\r' ∉ escapeChar c := by
  unfold escapeChar
  split
  case h_6 _ _ _ hreturn _ => exact fun hmem => hreturn (List.mem_singleton.mp hmem).symm
  all_goals decide

theorem not_mem_entryToToml {name : String} (hpart : IsPart name.toList) (entry : LockEntry) :
    '\r' ∉ entryToToml name entry := by
  have hname : '\r' ∉ name.toList := fun hmem => absurd (hpart.2 _ hmem) (by decide)
  have hkeys : ∀ field ∈ entry.fields, '\r' ∉ field.1 := by
    obtain ⟨git, commit, hash, subdir⟩ := entry
    cases subdir with
    | none => simp [LockEntry.fields]
    | some subdir => simp [LockEntry.fields]
  have hfields : '\r' ∉ entry.fields.flatMap fieldLine := by
    intro hmem
    obtain ⟨field, hfield, hmem⟩ := List.mem_flatMap.mp hmem
    have hescaped : '\r' ∉ field.2.flatMap escapeChar := by
      intro hmem
      obtain ⟨c, -, hmem⟩ := List.mem_flatMap.mp hmem
      exact not_mem_escapeChar c hmem
    simp [fieldLine, hkeys field hfield] at hmem
    exact hescaped (List.mem_flatMap.mpr hmem)
  rw [entryToToml_eq]
  simp [hname, hfields]

section

variable {entries : Dict String LockEntry} (haliases : ∀ name ∈ entries, isAlias name)

include haliases

theorem isPart_of_mem_toList : ∀ entry ∈ entries.toList, IsPart entry.1.toList := by
  intro entry hmem
  refine isPart_of_isAlias (haliases entry.1 ?_)
  rw [Std.ExtTreeMap.mem_iff_isSome_getElem?,
    Std.ExtTreeMap.mem_toList_iff_getElem?_eq_some.mp hmem]
  rfl

/-- **What is read of a written file**: every entry and nothing else, or nothing at all. -/
theorem load_writeLock :
    Toml.load (writeLock entries) =
      if entries.toList.any (fun entry => entry.2.raw) then none else
        some (rootOf (tablesOf entries.toList)) := by
  have hparts := isPart_of_mem_toList haliases
  have hdistinct : (entries.toList.map Prod.fst).Nodup := by
    rw [List.Nodup, List.pairwise_map]
    refine Std.ExtTreeMap.distinct_keys_toList.imp fun hne heq => hne ?_
    rw [heq]
    exact Std.ReflCmp.compare_self
  unfold writeLock
  generalize entries.toList = listed at *
  generalize hblocks : ['\n'].intercalate (listed.map fun entry => entryToToml entry.1 entry.2) =
    blocks
  have hreturn : '\r' ∉ lockHeader ++ blocks := by
    subst hblocks
    rw [List.mem_append, not_or]
    refine ⟨by decide, fun hmem => ?_⟩
    rcases mem_intercalate hmem with hmem | ⟨text, htext, hmem⟩
    · exact absurd hmem (by decide)
    · obtain ⟨entry, hentry, rfl⟩ := List.mem_map.mp htext
      exact not_mem_entryToToml (hparts entry hentry) entry.2 hmem
  have hlength : 6 * listed.length ≤ blocks.length := by
    subst hblocks
    have hcount : (listed.map fun entry => entryToToml entry.1 entry.2).length = listed.length :=
      List.length_map _
    rw [← hcount]
    refine le_length_intercalate fun text htext => ?_
    obtain ⟨entry, -, rfl⟩ := List.mem_map.mp htext
    rw [entryToToml_eq]
    simp only [List.length_cons, List.length_append, String.length_toList]
    have hname : "components".length = 10 := rfl
    omega
  obtain ⟨title, htitle, hline, hcontrol⟩ : ∃ title, lockHeader = '#' :: (title ++ ['\n', '\n']) ∧
      '\n' ∉ title ∧ title.any isControl = false :=
    ⟨(lockHeader.drop 1).dropLast.dropLast, by decide, by decide, by decide⟩
  have hrounds : (lockHeader ++ blocks).length + 1 = title.length + blocks.length + 2 + 1 + 1 := by
    rw [htitle]
    simp only [List.length_append, List.length_cons, List.length_nil]
    omega
  have hread := @lines_entries listed {} [] hparts hdistinct (fun _ _ => List.forall_mem_nil _)
    (fun _ _ => List.not_mem_nil) rfl (title.length + blocks.length + 2) (by omega)
  rw [hblocks] at hread
  rw [Toml.load, joinReturns_eq hreturn, hrounds, htitle, List.cons_append, List.append_assoc,
    List.cons_append, lines_comment _ _ _ hline hcontrol, List.singleton_append, lines_blank,
    hread, List.nil_append]

end

theorem entryFromToml_toTable (entry : LockEntry) :
    entryFromToml (.table entry.toTable) = some entry := by
  obtain ⟨git, commit, hash, subdir⟩ := entry
  cases subdir with
  | none =>
    change some (LockEntry.mk (String.ofList git.toList) (String.ofList commit.toList)
      (String.ofList hash.toList) none) = _
    rw [String.ofList_toList, String.ofList_toList, String.ofList_toList]
  | some subdir =>
    change some (LockEntry.mk (String.ofList git.toList) (String.ofList commit.toList)
      (String.ofList hash.toList) (some (String.ofList subdir.toList))) = _
    rw [String.ofList_toList, String.ofList_toList, String.ofList_toList, String.ofList_toList]

theorem mapM_tables (entries : List (String × LockEntry)) :
    (tablesOf entries).mapM (fun table : List Char × Toml =>
      match entryFromToml table.2 with
      | some entry => Except.ok (String.ofList table.1, entry)
      | none => Except.error (LockError.malformed (String.ofList table.1))) = .ok entries := by
  induction entries with
  | nil => rfl
  | cons entry entries ih =>
    rw [tablesOf, List.map_cons, ← tablesOf, List.mapM_cons, ih, entryFromToml_toTable,
      String.ofList_toList]
    rfl

/-- **What a lock that was written loads as.** -/
theorem loadLock_writeLock {entries : Dict String LockEntry}
    (haliases : ∀ name ∈ entries, isAlias name) :
    loadLock (some (writeLock entries)) =
      if entries.toList.any (fun entry => entry.2.raw) then .error .invalidToml
      else .ok entries := by
  rw [loadLock, load_writeLock haliases]
  cases entries.toList.any fun entry => entry.2.raw with
  | true => rfl
  | false =>
    have htables := mapM_tables entries.toList
    simp only [Bool.false_eq_true, if_false]
    unfold rootOf
    by_cases hnone : tablesOf entries.toList = []
    · have hempty : entries = ∅ := by
        rw [← ofList_toList entries, List.map_eq_nil_iff.mp hnone]
        rfl
      rw [if_pos hnone, hempty]
      rfl
    · rw [if_neg hnone, List.lookup_cons_self]
      simp only
      rw [htables, Fallible.bind_of_ok rfl, ofList_toList]

/-! ## Which locks are read back -/

def LockEntry.texts (entry : LockEntry) : List String :=
  entry.git :: entry.commit :: entry.hash :: entry.subdir.toList

/-- Every control character of the entry's texts is one that has an escape of its own here. -/
def LockEntry.Legible (entry : LockEntry) : Prop :=
  ∀ text ∈ entry.texts, ∀ c ∈ text.toList, isControl c → c = '\n' ∨ c = '\r'

theorem LockEntry.texts_eq (entry : LockEntry) :
    entry.texts = entry.fields.map fun field => String.ofList field.2 := by
  obtain ⟨git, commit, hash, subdir⟩ := entry
  cases subdir with
  | none => simp [texts, fields]
  | some subdir => simp [texts, fields]

theorem LockEntry.raw_eq_false_iff (entry : LockEntry) : entry.raw = false ↔ entry.Legible := by
  have hchar (c : Char) : isRaw c = false ↔ (isControl c → c = '\n' ∨ c = '\r') := by
    cases hcontrol : isControl c with
    | false => simp [isRaw, hcontrol]
    | true =>
      simp only [isRaw, hcontrol, Bool.true_and, Bool.and_eq_false_iff, decide_eq_false_iff_not,
        Decidable.not_not, true_imp_iff]
  unfold raw Legible
  rw [texts_eq, List.any_eq_false, List.forall_mem_map]
  refine forall₂_congr fun field _ => ?_
  rw [Bool.not_eq_true, List.any_eq_false, String.toList_ofList]
  exact forall₂_congr fun c _ => by rw [Bool.not_eq_true, hchar]

namespace Pinned

def quoting : LockEntry where
  git := "https://git.test/net\"\n[state]\nbackend = \"s3"
  commit := "0f3a"
  hash := "sha256.v2:9c"
  subdir := some "a\\b\tc"

def deleting : LockEntry where
  git := "https://git.test/net\x7f"
  commit := "0f3a"
  hash := "sha256.v2:9c"

def lockOf (entry : LockEntry) : Dict String LockEntry := (∅ : Dict String LockEntry).insert "net" entry

theorem lockOf_aliases (entry : LockEntry) : ∀ name ∈ lockOf entry, isAlias name := by
  intro name hmem
  rw [lockOf, Std.ExtTreeMap.mem_insert] at hmem
  rcases hmem with hsame | hmem
  · rw [← Std.LawfulEqCmp.eq_of_compare hsame]
    decide
  · exact absurd hmem Std.ExtTreeMap.not_mem_empty

theorem lockOf_getElem? {entry found : LockEntry} {name : String}
    (hfound : (lockOf entry)[name]? = some found) : found = entry := by
  rw [lockOf, Std.ExtTreeMap.getElem?_insert] at hfound
  split at hfound
  · exact (Option.some.inj hfound).symm
  · cases hfound

end Pinned

end Atlantide.Components
