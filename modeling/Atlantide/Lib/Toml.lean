import Mathlib.Tactic.Common

/-! # Reading TOML

Comments, headers of bare dotted keys, and bare keys set to one-line basic strings; whatever else a
document may hold is refused. Each rule takes its text off the front of what is left. -/

inductive Toml
  | str (text : List Char)
  | table (entries : List (List Char × Toml))

namespace Toml

abbrev Table := List (List Char × Toml)

def isBlank (c : Char) : Bool := c = ' ' || c = '\t'

/-- The control characters, tab aside: in no comment and in no basic string. -/
def isControl (c : Char) : Bool := (c.toNat < 32 || c.toNat = 127) && c ≠ '\t'

def isBare (c : Char) : Bool := c.isAlphanum || c = '_' || c = '-'

def skipBlanks (text : List Char) : List Char := text.dropWhile isBlank

/-- What a character stands for behind a backslash. -/
def unescaped : Char → Option Char
  | 'b' => some '\x08'
  | 't' => some '\t'
  | 'n' => some '\n'
  | 'f' => some '\x0c'
  | 'r' => some '\r'
  | '"' => some '"'
  | '\\' => some '\\'
  | _ => none

/-- A basic string behind its opening quote, and what follows its closing one. -/
def basicString : List Char → Option (List Char × List Char)
  | [] => none
  | '"' :: rest => some ([], rest)
  | '\\' :: c :: rest => do
    let known ← unescaped c
    let (text, rest) ← basicString rest
    some (known :: text, rest)
  | c :: rest => do
    if isControl c then none
    let (text, rest) ← basicString rest
    some (c :: text, rest)

def value : List Char → Option (Toml × List Char)
  | '"' :: '"' :: '"' :: _ => none
  | '"' :: rest => (basicString rest).map fun found => (.str found.1, found.2)
  | _ => none

/-- The parts of a dotted key of bare keys. -/
def key : Nat → List Char → Option (List (List Char) × List Char)
  | 0, _ => none
  | rounds + 1, text =>
    match text.takeWhile isBare with
    | [] => none
    | part =>
      match skipBlanks (text.dropWhile isBare) with
      | '.' :: rest => (key rounds (skipBlanks rest)).map fun found => (part :: found.1, found.2)
      | rest => some ([part], rest)

/-- The table at a path changed, with what is missing of the path made. -/
def nested (change : Table → Option Table) : List (List Char) → Table → Option Table
  | [], entries => change entries
  | part :: path, entries =>
    match entries.lookup part with
    | none => (nested change path []).map fun below => entries ++ [(part, .table below)]
    | some (.table below) => (nested change path below).map fun below =>
      entries.map fun entry => if entry.1 = part then (part, .table below) else entry
    | some (.str _) => none

/-- What has been read: the document, the header the keys go under, and the headers there were. -/
structure Document where
  root : Table := []
  header : List (List Char) := []
  declared : List (List (List Char)) := []

def header (document : Document) (text : List Char) : Option (Document × List Char) := do
  let (path, rest) ← key (text.length + 1) (skipBlanks text)
  if path ∈ document.declared then none
  let root ← nested some path document.root
  match rest with
  | ']' :: rest => some (⟨root, path, path :: document.declared⟩, rest)
  | _ => none

def pair (document : Document) (text : List Char) : Option (Document × List Char) := do
  let (path, rest) ← key (text.length + 1) text
  match path, rest with
  | [name], '=' :: rest =>
    let (found, rest) ← value (skipBlanks rest)
    let root ← nested (fun entries =>
      if (entries.lookup name).isSome then none else some (entries ++ [(name, found)]))
      document.header document.root
    some ({ document with root }, rest)
  | _, _ => none

def comment : List Char → Option (List Char)
  | '#' :: rest =>
    if (rest.takeWhile (· ≠ '\n')).any isControl then none else some (rest.dropWhile (· ≠ '\n'))
  | text => some text

/-- A line's statement, and what follows it on the line. -/
def statement (document : Document) : List Char → Option (Document × List Char)
  | '[' :: '[' :: _ => none
  | '[' :: rest => header document rest
  | '#' :: rest => some (document, '#' :: rest)
  | text => pair document text

/-- The document line by line. -/
def lines : Nat → Document → List Char → Option Document
  | 0, _, _ => none
  | rounds + 1, document, text =>
    match skipBlanks text with
    | [] => some document
    | '\n' :: rest => lines rounds document rest
    | text => do
      let (document, rest) ← statement document text
      match ← comment (skipBlanks rest) with
      | [] => some document
      | '\n' :: rest => lines rounds document rest
      | _ => none

/-- Every carriage return before a line feed dropped. -/
def joinReturns : List Char → List Char
  | '\r' :: '\n' :: rest => '\n' :: joinReturns rest
  | c :: rest => c :: joinReturns rest
  | [] => []

/-- Each line is a round. -/
def load (text : List Char) : Option Table :=
  (lines (text.length + 1) {} (joinReturns text)).map (·.root)

/-! ## Basic strings -/

/-- A character as it is written in a basic string, by a writer that escapes what has a short escape
among these. -/
def escapeChar : Char → List Char
  | '\\' => ['\\', '\\']
  | '"' => ['\\', '"']
  | '\n' => ['\\', 'n']
  | '\r' => ['\\', 'r']
  | '\t' => ['\\', 't']
  | c => [c]

/-- A character that such a writer leaves as it is, and a reader refuses. -/
def isRaw (c : Char) : Bool := isControl c && c ≠ '\n' && c ≠ '\r'

theorem basicString_cons {c : Char} (hquote : c ≠ '"') (hslash : c ≠ '\\') (rest : List Char) :
    basicString (c :: rest) = if isControl c then none else
      (basicString rest).map fun found => (c :: found.1, found.2) := by
  rw [basicString]
  · cases isControl c with
    | true => rfl
    | false => cases basicString rest <;> rfl
  · exact hquote
  · exact fun _ _ hsame => absurd hsame hslash

theorem basicString_escape {c known : Char} (hknown : unescaped c = some known)
    (rest : List Char) : basicString ('\\' :: c :: rest) =
      (basicString rest).map fun found => (known :: found.1, found.2) := by
  rw [basicString, hknown]
  cases basicString rest <;> rfl

/-- An escaped character is read back, unless it was left raw. -/
theorem basicString_escapeChar (c : Char) (rest : List Char) :
    basicString (escapeChar c ++ rest) = if isRaw c then none else
      (basicString rest).map fun found => (c :: found.1, found.2) := by
  by_cases hslash : c = '\\'
  · subst hslash
    exact basicString_escape rfl rest
  by_cases hquote : c = '"'
  · subst hquote
    exact basicString_escape rfl rest
  by_cases hfeed : c = '\n'
  · subst hfeed
    exact basicString_escape rfl rest
  by_cases hreturn : c = '\r'
  · subst hreturn
    exact basicString_escape rfl rest
  by_cases htab : c = '\t'
  · subst htab
    exact basicString_escape rfl rest
  have hplain : escapeChar c = [c] := by
    unfold escapeChar
    split
    all_goals first | contradiction | rfl
  have hraw : isRaw c = isControl c := by
    simp [isRaw, hfeed, hreturn]
  rw [hplain, hraw, List.singleton_append, basicString_cons hquote hslash]

/-- **An escaped text is read back**, unless a character of it was left raw. -/
theorem basicString_escaped (text rest : List Char) :
    basicString (text.flatMap escapeChar ++ '"' :: rest) =
      if text.any isRaw then none else some (text, rest) := by
  induction text with
  | nil => rfl
  | cons c text ih =>
    rw [List.flatMap_cons, List.append_assoc, basicString_escapeChar, ih, List.any_cons]
    cases isRaw c <;> cases text.any isRaw <;> rfl

/-! ## Tables -/

section

variable {part : List Char} {entries : Table}

theorem lookup_append_of_forall_ne (hfresh : ∀ entry ∈ entries, entry.1 ≠ part) (below : Table) :
    (entries ++ below).lookup part = below.lookup part := by
  rw [List.lookup_append, List.lookup_eq_none_iff.mpr, Option.none_or]
  intro entry hmem
  rw [bne_iff_ne]
  exact (hfresh entry hmem).symm

theorem nested_new (hfresh : ∀ entry ∈ entries, entry.1 ≠ part) (change : Table → Option Table)
    (path : List (List Char)) :
    nested change (part :: path) entries =
      (nested change path []).map fun below => entries ++ [(part, .table below)] := by
  have hlookup : entries.lookup part = none := by
    rw [← List.append_nil entries, lookup_append_of_forall_ne hfresh]
    rfl
  rw [nested, hlookup]

theorem nested_last (hfresh : ∀ entry ∈ entries, entry.1 ≠ part) (change : Table → Option Table)
    (path : List (List Char)) (body : Table) :
    nested change (part :: path) (entries ++ [(part, .table body)]) =
      (nested change path body).map fun below => entries ++ [(part, .table below)] := by
  have hlookup : (entries ++ [(part, Toml.table body)]).lookup part = some (.table body) := by
    rw [lookup_append_of_forall_ne hfresh, List.lookup_cons_self]
  have hkept (below : Table) :
      entries.map (fun entry => if entry.1 = part then (part, Toml.table below) else entry) =
        entries := by
    conv_rhs => rw [← List.map_id entries]
    refine List.map_congr_left fun entry hmem => ?_
    rw [if_neg (hfresh entry hmem)]
    rfl
  rw [nested, hlookup]
  simp only [List.map_append, hkept, List.map_cons, List.map_nil, if_true]

end

/-! ## Keys -/

/-- What may stand as a part of a key without quotes. -/
def IsPart (part : List Char) : Prop := part ≠ [] ∧ ∀ c ∈ part, isBare c

theorem takeWhile_part {part : List Char} (hpart : ∀ c ∈ part, isBare c) {c : Char}
    (hend : isBare c = false) (rest : List Char) :
    (part ++ c :: rest).takeWhile isBare = part := by
  rw [List.takeWhile_append_of_pos hpart, List.takeWhile_cons_of_neg (by simp [hend]),
    List.append_nil]

theorem dropWhile_part {part : List Char} (hpart : ∀ c ∈ part, isBare c) {c : Char}
    (hend : isBare c = false) (rest : List Char) :
    (part ++ c :: rest).dropWhile isBare = c :: rest := by
  rw [List.dropWhile_append_of_pos hpart, List.dropWhile_cons_of_neg (by simp [hend])]

theorem isBlank_of_isBare {c : Char} (hbare : isBare c) : isBlank c = false := by
  cases hblank : isBlank c with
  | false => rfl
  | true =>
    rw [isBlank, Bool.or_eq_true, decide_eq_true_eq, decide_eq_true_eq] at hblank
    rcases hblank with rfl | rfl
    · exact absurd hbare (by decide)
    · exact absurd hbare (by decide)

theorem skipBlanks_part {part : List Char} (hpart : IsPart part) (rest : List Char) :
    skipBlanks (part ++ rest) = part ++ rest := by
  obtain ⟨c, tail, rfl⟩ := List.exists_cons_of_ne_nil hpart.1
  exact List.dropWhile_cons_of_neg (by simp [isBlank_of_isBare (hpart.2 c List.mem_cons_self)])

theorem key_dot {part : List Char} (hpart : IsPart part) (rounds : Nat) (rest : List Char) :
    key (rounds + 1) (part ++ '.' :: rest) =
      (key rounds (skipBlanks rest)).map fun found => (part :: found.1, found.2) := by
  rw [key, takeWhile_part hpart.2 (by decide), dropWhile_part hpart.2 (by decide)]
  obtain ⟨c, tail, rfl⟩ := List.exists_cons_of_ne_nil hpart.1
  rfl

theorem key_last {part : List Char} (hpart : IsPart part) {c : Char} {rest : List Char}
    (hend : isBare c = false) {next : Char} {after : List Char}
    (hafter : skipBlanks (c :: rest) = next :: after) (hdot : next ≠ '.') (rounds : Nat) :
    key (rounds + 1) (part ++ c :: rest) = some ([part], next :: after) := by
  rw [key, takeWhile_part hpart.2 hend, dropWhile_part hpart.2 hend, hafter]
  obtain ⟨first, tail, rfl⟩ := List.exists_cons_of_ne_nil hpart.1
  simp only
  split
  · rename_i heq
    exact absurd (List.cons.inj heq).1 hdot
  · rfl

/-! ## Lines -/

section

variable (rounds : Nat) (document : Document) (rest : List Char)

theorem lines_blank : lines (rounds + 1) document ('\n' :: rest) = lines rounds document rest := rfl

/-- A line that is not blank is a statement and what may follow it. -/
theorem lines_cons {c : Char} (hblank : isBlank c = false) (hfeed : c ≠ '\n') :
    lines (rounds + 1) document (c :: rest) =
      (statement document (c :: rest)).bind fun found =>
        (comment (skipBlanks found.2)).bind fun after =>
          match after with
          | [] => some found.1
          | '\n' :: rest => lines rounds found.1 rest
          | _ => none := by
  have hskip : skipBlanks (c :: rest) = c :: rest := List.dropWhile_cons_of_neg (by simp [hblank])
  rw [lines, hskip]
  split
  · rename_i heq
    cases heq
  · rename_i heq
    exact absurd (List.cons.inj heq).1 hfeed
  · rfl

theorem lines_comment {text : List Char} (hline : '\n' ∉ text)
    (hcontrol : text.any isControl = false) :
    lines (rounds + 1) document ('#' :: (text ++ '\n' :: rest)) = lines rounds document rest := by
  have hall : ∀ c ∈ text, decide (c ≠ '\n') = true := by
    intro c hmem
    rw [decide_eq_true_eq]
    exact fun heq => hline (heq ▸ hmem)
  have hcomment : comment ('#' :: (text ++ '\n' :: rest)) = some ('\n' :: rest) := by
    rw [comment, List.takeWhile_append_of_pos hall, List.takeWhile_cons_of_neg (by simp),
      List.append_nil, hcontrol, List.dropWhile_append_of_pos hall,
      List.dropWhile_cons_of_neg (by simp)]
    rfl
  have hskip : skipBlanks ('#' :: (text ++ '\n' :: rest)) = '#' :: (text ++ '\n' :: rest) := rfl
  rw [lines_cons rounds document _ rfl (by decide), statement, Option.bind_some, hskip, hcomment]
  rfl

theorem lines_header {outer inner : List Char} (houter : IsPart outer) (hinner : IsPart inner)
    (hnew : [outer, inner] ∉ document.declared) :
    lines (rounds + 1) document ('[' :: (outer ++ '.' :: (inner ++ ']' :: '\n' :: rest))) =
      (nested some [outer, inner] document.root).bind fun root =>
        lines rounds ⟨root, [outer, inner], [outer, inner] :: document.declared⟩ rest := by
  have hkey (fuel : Nat) : key (fuel + 1 + 1) (outer ++ '.' :: (inner ++ ']' :: '\n' :: rest)) =
      some ([outer, inner], ']' :: '\n' :: rest) := by
    rw [key_dot houter, skipBlanks_part hinner, key_last hinner rfl rfl (by decide)]
    rfl
  have hheader : statement document ('[' :: (outer ++ '.' :: (inner ++ ']' :: '\n' :: rest))) =
      header document (outer ++ '.' :: (inner ++ ']' :: '\n' :: rest)) := by
    obtain ⟨c, tail, rfl⟩ := List.exists_cons_of_ne_nil houter.1
    have hbracket : c ≠ '[' := by
      rintro rfl
      exact absurd (houter.2 '[' List.mem_cons_self) (by decide)
    unfold statement
    split
    · rename_i heq
      exact absurd (List.cons.inj (List.cons.inj heq).2).1 hbracket
    · rename_i heq
      rw [(List.cons.inj heq).2]
    · rename_i heq
      exact absurd (List.cons.inj heq).1 (by decide)
    · rename_i hno _
      exact absurd rfl (hno _)
  rw [lines_cons rounds document _ rfl (by decide), hheader, header, skipBlanks_part houter]
  have hlength : (outer ++ '.' :: (inner ++ ']' :: '\n' :: rest)).length + 1 =
      outer.length + inner.length + rest.length + 2 + 1 + 1 := by
    simp only [List.length_append, List.length_cons]
    omega
  rw [hlength, hkey]
  simp only [Option.bind_eq_bind, Option.bind_some, if_neg hnew]
  cases nested some [outer, inner] document.root with
  | none => rfl
  | some root => rfl

theorem escapeChar_eq_cons (c : Char) :
    ∃ first after, escapeChar c = first :: after ∧ first ≠ '"' := by
  unfold escapeChar
  split
  case h_6 hquote _ _ _ => exact ⟨c, [], rfl, hquote⟩
  all_goals exact ⟨'\\', _, rfl, by decide⟩

theorem value_escaped (text rest : List Char) :
    value ('"' :: (text.flatMap escapeChar ++ '"' :: '\n' :: rest)) =
      if text.any isRaw then none else some (.str text, '\n' :: rest) := by
  have hsingle : ∀ tail, text.flatMap escapeChar ++ '"' :: '\n' :: rest ≠ '"' :: '"' :: tail := by
    intro tail heq
    cases text with
    | nil => exact absurd (List.cons.inj (List.cons.inj heq).2).1 (by decide)
    | cons c text =>
      obtain ⟨first, after, hfirst, hquote⟩ := escapeChar_eq_cons c
      rw [List.flatMap_cons, hfirst] at heq
      exact hquote (List.cons.inj heq).1
  rw [value]
  · rw [basicString_escaped]
    cases text.any isRaw <;> rfl
  · exact hsingle

theorem statement_part {name : List Char} (hname : IsPart name) :
    statement document (name ++ rest) = pair document (name ++ rest) := by
  obtain ⟨c, after, rfl⟩ := List.exists_cons_of_ne_nil hname.1
  have hbare : isBare c := hname.2 c List.mem_cons_self
  rw [List.cons_append, statement]
  · rintro _ heq
    rw [(List.cons.inj heq).1] at hbare
    exact absurd hbare (by decide)
  · rintro _ heq
    rw [(List.cons.inj heq).1] at hbare
    exact absurd hbare (by decide)
  · rintro _ heq
    rw [(List.cons.inj heq).1] at hbare
    exact absurd hbare (by decide)

theorem lines_pair {name : List Char} (hname : IsPart name) (text : List Char) :
    lines (rounds + 1) document
        (name ++ ' ' :: '=' :: ' ' :: '"' :: (text.flatMap escapeChar ++ '"' :: '\n' :: rest)) =
      if text.any isRaw then none else
        (nested (fun entries => if (entries.lookup name).isSome then none else
          some (entries ++ [(name, .str text)])) document.header document.root).bind fun root =>
            lines rounds { document with root } rest := by
  generalize htail : '"' :: (text.flatMap escapeChar ++ '"' :: '\n' :: rest) = tail
  have hvalue : value (skipBlanks (' ' :: tail)) =
      if text.any isRaw then none else some (.str text, '\n' :: rest) := by
    subst htail
    exact value_escaped text rest
  have hkey (fuel : Nat) : key (fuel + 1) (name ++ ' ' :: '=' :: ' ' :: tail) =
      some ([name], '=' :: ' ' :: tail) :=
    key_last hname rfl rfl (by decide) fuel
  have hstatement : statement document (name ++ ' ' :: '=' :: ' ' :: tail) =
      if text.any isRaw then none else
        (nested (fun entries => if (entries.lookup name).isSome then none else
          some (entries ++ [(name, .str text)])) document.header document.root).bind fun root =>
            some ({ document with root }, '\n' :: rest) := by
    rw [statement_part document _ hname, pair, hkey]
    simp only [Option.bind_eq_bind, Option.bind_some, hvalue]
    cases text.any isRaw <;> rfl
  obtain ⟨c, after, rfl⟩ := List.exists_cons_of_ne_nil hname.1
  have hbare : isBare c := hname.2 c List.mem_cons_self
  have hfeed : c ≠ '\n' := by
    rintro rfl
    exact absurd hbare (by decide)
  rw [List.cons_append, lines_cons rounds document _ (isBlank_of_isBare hbare) hfeed,
    ← List.cons_append, hstatement]
  cases text.any isRaw with
  | true => rfl
  | false =>
    simp only [Bool.false_eq_true, if_false]
    rw [Option.bind_assoc]
    rfl

theorem joinReturns_eq {text : List Char} (hnone : '\r' ∉ text) : joinReturns text = text := by
  induction text with
  | nil => rfl
  | cons c text ih =>
    obtain ⟨hne, htail⟩ := not_or.mp (List.mem_cons.not.mp hnone)
    rw [joinReturns, ih htail]
    exact fun _ heq _ => hne heq.symm

end

end Toml
