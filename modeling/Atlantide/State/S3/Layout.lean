import Atlantide.State.Codec

/-! # Where a state's journal objects live

An entry's key holds its item, its sequence number and its fence, after a prefix of the state's own. The
item's name is quoted, so that a separator in a key is never part of a name. -/

namespace Atlantide

/-- `urllib.parse.quote` with nothing safe, and `unquote`. -/
structure Url where
  quote : String → String
  unquote : String → String

structure Url.Lawful (url : Url) : Prop where
  unquote_quote : ∀ name, url.unquote (url.quote name) = name
  unslashed : ∀ name, '/' ∉ (url.quote name).toList

def isHex (c : Char) : Bool := c.isDigit || 'a' ≤ c && c ≤ 'f'

/-- The random part of a key, in hexadecimal. -/
structure Nonce where
  digits : List Char
  hex : digits.all isHex = true

/-- A number's decimal digits, with zeros in front up to `width`. -/
def padded (width number : Nat) : List Char :=
  List.replicate (width - (Nat.toDigits 10 number).length) '0' ++ Nat.toDigits 10 number

def isDigits (chars : List Char) : Bool := chars ≠ [] && chars.all Char.isDigit

/-- An entry as a listing reports it. -/
structure ListedEntry where
  kind : EntryKind
  name : String
  seq : Nat
  fence : Nat
  key : List Char
  deriving DecidableEq

/-- Where one state's journal objects live. Keys are kept as their characters. -/
structure Layout where
  key : String
  epoch : String

namespace Layout

variable (layout : Layout) (url : Url)

def entriesAt : List Char := layout.key.toList ++ ".d/".toList ++ layout.epoch.toList ++ ['/']

/-- What every key of the item's entries starts with. -/
def itemAt (item : Item) : List Char :=
  layout.entriesAt ++ (item.kind.segment.toList ++ '/' :: ((url.quote item.name).toList ++ ['/']))

def entryKey (item : Item) (seq fence : Nat) (nonce : Nonce) : List Char :=
  layout.itemAt url item ++
    (padded 12 seq ++ '-' :: (Nat.toDigits 10 fence ++ '-' :: nonce.digits) ++ ".json".toList)

/-- The entry a listed key names, if it is one. -/
def parse (key : List Char) : Option ListedEntry :=
  if layout.entriesAt.isPrefixOf key then
    match (key.drop layout.entriesAt.length).splitOn '/' with
    | [segment, quoted, file] =>
      match EntryKind.ofSegment (String.ofList segment) with
      | some kind =>
        if ".json".toList.isSuffixOf file then
          match (file.take (file.length - ".json".toList.length)).splitOn '-' with
          | [seq, fence, _] =>
            if isDigits seq && isDigits fence then
              some ⟨kind, url.unquote (String.ofList quoted), Nat.ofDigitChars 10 seq 0,
                Nat.ofDigitChars 10 fence 0, key⟩
            else none
          | _ => none
        else none
      | none => none
    | _ => none
  else none

end Layout

/-! ## Numbers -/

theorem ofDigitChars_padded (width number : Nat) :
    Nat.ofDigitChars 10 (padded width number) 0 = number := by
  rw [padded, Nat.ofDigitChars_append, Nat.ofDigitChars_replicate_zero, Nat.mul_zero]
  exact Nat.ofDigitChars_toDigits (by decide) (by decide)

theorem isDigit_of_mem_padded {width number : Nat} {c : Char} (hmem : c ∈ padded width number) :
    c.isDigit = true := by
  rcases List.mem_append.mp hmem with hzero | hdigit
  · rw [List.eq_of_mem_replicate hzero]
    decide
  · exact Nat.isDigit_of_mem_toDigits (by decide) (by decide) hdigit

theorem isDigits_padded (width number : Nat) : isDigits (padded width number) = true := by
  have hne : padded width number ≠ [] :=
    List.append_ne_nil_of_right_ne_nil _ Nat.toDigits_ne_nil
  simp only [isDigits, hne, ne_eq, not_false_eq_true, decide_true, Bool.true_and, List.all_eq_true]
  exact fun c hmem => isDigit_of_mem_padded hmem

theorem padded_zero (number : Nat) : padded 0 number = Nat.toDigits 10 number := by
  rw [padded, Nat.zero_sub, List.replicate_zero, List.nil_append]

/-! ## Reading a key back -/

/-- What stands before a separator, in two lists of which one begins the other. -/
theorem before_separator {sep : Char} {first second rest rest' : List Char} (hfirst : sep ∉ first)
    (hsecond : sep ∉ second) (hbegins : first ++ sep :: rest <+: second ++ sep :: rest') :
    first = second ∧ rest <+: rest' := by
  induction first generalizing second with
  | nil =>
    cases second with
    | nil => exact ⟨rfl, (List.cons_prefix_cons.mp hbegins).2⟩
    | cons c second =>
      have hsame := (List.cons_prefix_cons.mp hbegins).1
      exact absurd (hsame ▸ List.mem_cons_self ..) hsecond
  | cons c first ih =>
    cases second with
    | nil =>
      have hsame := (List.cons_prefix_cons.mp hbegins).1
      exact absurd (hsame ▸ List.mem_cons_self ..) hfirst
    | cons c' second =>
      obtain ⟨rfl, hrest⟩ := List.cons_prefix_cons.mp hbegins
      obtain ⟨hsame, hlast⟩ := ih (fun hmem => hfirst (List.mem_cons_of_mem _ hmem))
        (fun hmem => hsecond (List.mem_cons_of_mem _ hmem)) hrest
      exact ⟨congrArg _ hsame, hlast⟩

theorem EntryKind.unslashed (kind : EntryKind) : '/' ∉ kind.segment.toList := by
  cases kind <;> decide

theorem EntryKind.ofSegment_segment (kind : EntryKind) :
    EntryKind.ofSegment kind.segment = some kind := by
  cases kind <;> rfl

theorem Nonce.not_mem (nonce : Nonce) {c : Char} (hc : isHex c = false) : c ∉ nonce.digits := by
  intro hmem
  rw [List.all_eq_true.mp nonce.hex c hmem] at hc
  cases hc

theorem not_mem_padded {c : Char} (hc : c.isDigit = false) (width number : Nat) :
    c ∉ padded width number := by
  intro hmem
  rw [isDigit_of_mem_padded hmem] at hc
  cases hc

namespace Layout

variable {layout : Layout} {url : Url}

/-- **A key names the entry it was made for.** -/
theorem parse_entryKey (hurl : url.Lawful) (item : Item) (seq fence : Nat) (nonce : Nonce) :
    layout.parse url (layout.entryKey url item seq fence nonce) =
      some ⟨item.kind, item.name, seq, fence, layout.entryKey url item seq fence nonce⟩ := by
  have hstem : (padded 12 seq ++ '-' :: (Nat.toDigits 10 fence ++ '-' :: nonce.digits)).splitOn '-' =
      [padded 12 seq, Nat.toDigits 10 fence, nonce.digits] := by
    rw [List.splitOn_append_cons_self_of_not_mem (not_mem_padded (by decide) 12 seq), ← padded_zero fence,
      List.splitOn_append_cons_self_of_not_mem (not_mem_padded (by decide) 0 fence),
      List.splitOn_eq_singleton (nonce.not_mem (by decide))]
  generalize hfile : padded 12 seq ++ '-' :: (Nat.toDigits 10 fence ++ '-' :: nonce.digits) = stem
    at hstem
  have hplain : '/' ∉ stem ++ ".json".toList := by
    rw [← hfile, ← padded_zero fence]
    simp only [List.mem_append, List.mem_cons, not_or]
    exact ⟨⟨not_mem_padded (by decide) 12 seq, by decide, not_mem_padded (by decide) 0 fence,
      by decide, nonce.not_mem (by decide)⟩, by decide⟩
  have hkey : layout.entryKey url item seq fence nonce = layout.entriesAt ++
      (item.kind.segment.toList ++ '/' :: ((url.quote item.name).toList ++
        '/' :: (stem ++ ".json".toList))) := by
    rw [entryKey, itemAt, hfile]
    simp only [List.append_assoc, List.cons_append, List.nil_append]
  have hparts : (item.kind.segment.toList ++ '/' :: ((url.quote item.name).toList ++
      '/' :: (stem ++ ".json".toList))).splitOn '/' =
        [item.kind.segment.toList, (url.quote item.name).toList, stem ++ ".json".toList] := by
    rw [List.splitOn_append_cons_self_of_not_mem item.kind.unslashed, List.splitOn_append_cons_self_of_not_mem (hurl.unslashed item.name),
      List.splitOn_eq_singleton hplain]
  generalize layout.entryKey url item seq fence nonce = key at hkey ⊢
  have hbegins : layout.entriesAt.isPrefixOf key = true := by
    rw [hkey]
    exact List.isPrefixOf_iff_prefix.mpr (List.prefix_append ..)
  have hdrop := congrArg (List.drop layout.entriesAt.length) hkey
  rw [List.drop_left] at hdrop
  rw [parse, if_pos hbegins, hdrop, hparts]
  have hsuffix : ".json".toList.isSuffixOf (stem ++ ".json".toList) = true :=
    List.isSuffixOf_iff_suffix.mpr (List.suffix_append ..)
  have htake : (stem ++ ".json".toList).take
      ((stem ++ ".json".toList).length - ".json".toList.length) = stem := by
    rw [List.length_append, Nat.add_sub_cancel, List.take_left]
  dsimp only
  rw [String.ofList_toList, EntryKind.ofSegment_segment]
  dsimp only
  rw [if_pos hsuffix, htake, hstem]
  dsimp only
  rw [← padded_zero fence, isDigits_padded, isDigits_padded, ofDigitChars_padded,
    ofDigitChars_padded, String.ofList_toList, hurl.unquote_quote]
  rfl

/-- **No two items' entries share the start of their keys.** -/
theorem itemAt_injective (hurl : url.Lawful) {item other : Item}
    (hbegins : layout.itemAt url item <+: layout.itemAt url other) : item = other := by
  have hrest := (List.prefix_append_right_inj _).mp hbegins
  obtain ⟨hkind, hrest⟩ := before_separator item.kind.unslashed other.kind.unslashed hrest
  obtain ⟨hquote, -⟩ := before_separator (hurl.unslashed item.name) (hurl.unslashed other.name) hrest
  have hname : item.name = other.name := by
    rw [← hurl.unquote_quote item.name, String.toList_injective hquote, hurl.unquote_quote]
  have hsame : item.kind = other.kind := EntryKind.segment_injective (String.toList_injective hkind)
  cases item
  cases other
  cases hsame
  cases hname
  rfl

end Layout

/-- **The codec round trips**: documents of this build's format and entries on both sides of the
compression threshold, rows of both databases, and keys; and no two items share the start of a key. -/
theorem codec_round_trips {json : Json} {gzip : Gzip} {url : Url} (hbraced : json.Braced)
    (hgzip : gzip.Lawful) (hurl : url.Lawful) (lax : Value → Option Bool) (compressOver : Nat) :
    (∀ doc : StoredDocument, doc.version = snapshotVersion →
      (∀ value ∈ doc.values, json.Inverse value) →
        ∃ raw, doc.encode json gzip compressOver = some raw ∧
          StoredDocument.decode json gzip lax raw = .ok doc) ∧
    (∀ entry : JournalEntry, (∀ value ∈ entry.values, json.Inverse value) →
      ∃ raw, entry.encode json gzip compressOver = some raw ∧
        JournalEntry.decode json gzip lax raw = .ok entry) ∧
    (∀ (database : Database) (node : StateNode), (∀ value ∈ node.columnValues, json.Inverse value) →
      StateNode.ofRow json (rowOf database (node.columns json)) = .ok node) ∧
    (∀ (layout : Layout) (item : Item) (seq fence : Nat) (nonce : Nonce),
      layout.parse url (layout.entryKey url item seq fence nonce) =
        some ⟨item.kind, item.name, seq, fence, layout.entryKey url item seq fence nonce⟩) ∧
    ∀ (layout : Layout) (item other : Item),
      layout.itemAt url item <+: layout.itemAt url other → item = other :=
  ⟨fun _ hversion hjson => StoredDocument.decode_encode lax compressOver hbraced hgzip hversion hjson,
    fun _ hjson => JournalEntry.decode_encode lax compressOver hbraced hgzip hjson,
    fun database _ hjson => StateNode.ofRow_columns database hjson,
    fun _ item seq fence nonce => Layout.parse_entryKey hurl item seq fence nonce,
    fun _ _ _ hbegins => Layout.itemAt_injective hurl hbegins⟩

/-! ## A small state -/

namespace Sample

def quoted (text : String) : List Char := Char.ofNat 0x22 :: text.toList ++ [Char.ofNat 0x22]

mutual

/-- Compact JSON, of values whose strings need no escapes. -/
def render : Value → List Char
  | .null => "null".toList
  | .bool value => (if value then "true" else "false").toList
  | .int number => (toString number).toList
  | .float repr => repr.toList
  | .str text => quoted text
  | .list items => '[' :: renderItems items ++ [']']
  | .dict fields => Char.ofNat 0x7b :: renderFields fields ++ [Char.ofNat 0x7d]

def renderItems : List Value → List Char
  | [] => []
  | [item] => render item
  | item :: items => render item ++ ',' :: renderItems items

def renderFields : List (String × Value) → List Char
  | [] => []
  | [(key, value)] => quoted key ++ ':' :: render value
  | (key, value) :: fields => quoted key ++ ':' :: render value ++ ',' :: renderFields fields

end

def ascii (text : List Char) : Bytes := text.map fun c => c.toNat.toUInt8

def asciiText (raw : Bytes) : List Char := raw.map fun byte => Char.ofNat byte.toNat

/-- JSON that reads back the listed values only. -/
def json (values : List Value) : Json where
  compact value := ascii (render value)
  loads raw := values.find? fun value => render value = asciiText raw
  dump value := ascii (render value)
  validate raw := values.find? fun value => render value = asciiText raw

theorem braced (values : List Value) : (json values).Braced := fun _ => rfl

theorem asciiText_ascii {text : List Char} (hascii : text.all fun c => c.toNat < 128) :
    asciiText (ascii text) = text := by
  have hchars : (text.map fun c => c.toNat.toUInt8).map (fun byte => Char.ofNat byte.toNat) =
      text.map id := by
    rw [List.map_map]
    refine List.map_congr_left fun c hmem => ?_
    have hsmall : c.toNat < 128 := of_decide_eq_true (List.all_eq_true.mp hascii c hmem)
    have hbyte : c.toNat.toUInt8.toNat = c.toNat := Nat.mod_eq_of_lt (by omega)
    rw [Function.comp, hbyte, Char.ofNat_toNat, id]
  rw [asciiText, ascii, hchars, List.map_id]

/-- Listed values with texts of their own are read back. -/
theorem inverse_of_mem {values : List Value}
    (hown : values.all fun value => (values.find? fun other => render other = render value) =
      some value && (render value).all fun c => c.toNat < 128)
    {value : Value} (hmem : value ∈ values) : (json values).Inverse value := by
  have hvalue := List.all_eq_true.mp hown value hmem
  rw [Bool.and_eq_true, decide_eq_true_eq] at hvalue
  have hread : (values.find? fun other => render other = asciiText (ascii (render value))) =
      some value := by
    rw [asciiText_ascii hvalue.2]
    exact hvalue.1
  exact ⟨hread, hread, hread⟩

/-- A stand-in for gzip: the magic number, then the text. -/
def gzip : Gzip where
  compress raw := gzipMagic ++ raw
  decompress raw := some (raw.drop 2)

theorem gzip_lawful : gzip.Lawful := ⟨fun _ => rfl, fun _ => rfl⟩

def escape (c : Char) : List Char :=
  if c.isAlphanum then [c] else '%' :: (List.replicate c.toNat 'x' ++ ['y'])

def unescape : Option Nat → List Char → List Char
  | _, [] => []
  | none, c :: rest => if c = '%' then unescape (some 0) rest else c :: unescape none rest
  | some count, c :: rest =>
    if c = 'x' then unescape (some (count + 1)) rest else Char.ofNat count :: unescape none rest

/-- A stand-in for URL quoting: letters and digits as they are, the rest by number. -/
def url : Url where
  quote name := String.ofList (name.toList.flatMap escape)
  unquote text := String.ofList (unescape none text.toList)

theorem unescape_counted (count more : Nat) (rest : List Char) :
    unescape (some count) (List.replicate more 'x' ++ 'y' :: rest) =
      Char.ofNat (count + more) :: unescape none rest := by
  induction more generalizing count with
  | zero => rfl
  | succ more ih =>
    rw [List.replicate_succ, List.cons_append, unescape, if_pos rfl, ih]
    rw [Nat.add_assoc, Nat.add_comm 1 more]

theorem unescape_escape (chars rest : List Char) :
    unescape none (chars.flatMap escape ++ rest) = chars ++ unescape none rest := by
  induction chars with
  | nil => rfl
  | cons c chars ih =>
    rw [List.flatMap_cons, List.append_assoc]
    by_cases hplain : c.isAlphanum
    · rw [escape, if_pos hplain, List.singleton_append, unescape, if_neg, ih, List.cons_append]
      rintro rfl
      exact absurd hplain (by decide)
    · rw [escape, if_neg hplain, List.cons_append, unescape, if_pos rfl, List.append_assoc,
        List.singleton_append, unescape_counted, Nat.zero_add, Char.ofNat_toNat, ih, List.cons_append]

theorem url_lawful : url.Lawful where
  unquote_quote name := by
    have hback := unescape_escape name.toList []
    rw [List.append_nil, unescape, List.append_nil] at hback
    simp only [url, String.toList_ofList, hback, String.ofList_toList]
  unslashed name := by
    simp only [url, String.toList_ofList, List.mem_flatMap, not_exists, not_and]
    intro c _ hmem
    unfold escape at hmem
    split at hmem
    next hplain =>
      rw [← List.mem_singleton.mp hmem] at hplain
      exact absurd hplain (by decide)
    next => simp at hmem

def doc : StoredDocument := { serial := 7, epoch := "e1" }

def olderDoc : StoredDocument := { doc with version := 2 }

def entry : JournalEntry := { kind := .output, name := "dev", seq := 3, fence := 2, op := .delete }

def node : StateNode :=
  { id := "dev:net:vpc", type := "Vpc", provider := "aws", providerVersion := "1", inputHash := "h"
    preventDestroy := true }

/-- The values that JSON carries for the three of them. -/
def values : List Value :=
  [.dict [], .list [], .null, .dict (doc.fields (.dict []) (.dict [])),
    .dict (entry.fields .null .null)]

def olderValues : List Value := [.dict [], .dict (olderDoc.fields (.dict []) (.dict []))]

def nonce : Nonce := ⟨"0123456789ab".toList, by decide⟩

end Sample

/-- A document of an older format is not read back: `loads` reads this build's format only. -/
theorem older_format_refused : ∃ raw,
    Sample.olderDoc.encode (Sample.json Sample.olderValues) Sample.gzip 65536 = some raw ∧
      (∀ value ∈ Sample.olderDoc.values, (Sample.json Sample.olderValues).Inverse value) ∧
        ∃ error, StoredDocument.decode (Sample.json Sample.olderValues) Sample.gzip (fun _ => none)
          raw = .error error := by
  have hvalues : ∀ value ∈ Sample.olderDoc.values,
      (Sample.json Sample.olderValues).Inverse value := by
    have hlisted : ∀ value ∈ Sample.olderDoc.values, value ∈ Sample.olderValues := by decide +kernel
    exact fun value hmem => Sample.inverse_of_mem (by decide +kernel) (hlisted value hmem)
  refine ⟨_, by rw [StoredDocument.encode, StoredDocument.dumps_eq hvalues, Option.map_some],
    hvalues, ?_⟩
  obtain ⟨error, hrefused⟩ :=
    StoredDocument.loads_other (fun _ => none) (by decide : Sample.olderDoc.version ≠ _) hvalues
  refine ⟨error, ?_⟩
  rw [StoredDocument.decode, Gzip.decompressed_compressed Sample.gzip_lawful 65536 (Sample.braced _ _)]
  exact hrefused

theorem codec_round_trips_small :
    (∃ raw, Sample.doc.encode (Sample.json Sample.values) Sample.gzip 65536 = some raw ∧
      StoredDocument.decode (Sample.json Sample.values) Sample.gzip (fun _ => none) raw =
        .ok Sample.doc) ∧
    (∃ raw, Sample.entry.encode (Sample.json Sample.values) Sample.gzip 65536 = some raw ∧
      JournalEntry.decode (Sample.json Sample.values) Sample.gzip (fun _ => none) raw =
        .ok Sample.entry) ∧
    StateNode.ofRow (Sample.json Sample.values)
      (rowOf .sqlite (Sample.node.columns (Sample.json Sample.values))) = .ok Sample.node ∧
    (Layout.mk "state" "e1").parse Sample.url
      ((Layout.mk "state" "e1").entryKey Sample.url ⟨.output, "dev"⟩ 3 2 Sample.nonce) =
        some ⟨.output, "dev", 3, 2,
          "state.d/e1/out/dev/000000000003-2-0123456789ab.json".toList⟩ := by
  have hown : ∀ value ∈ Sample.values, (Sample.json Sample.values).Inverse value :=
    fun _ hmem => Sample.inverse_of_mem (by decide +kernel) hmem
  obtain ⟨hdoc, hentry, hrow, hkey, -⟩ := codec_round_trips (Sample.braced Sample.values)
    Sample.gzip_lawful Sample.url_lawful (fun _ => none) 65536
  have hlisted : (∀ value ∈ Sample.doc.values, value ∈ Sample.values) ∧
      (∀ value ∈ Sample.entry.values, value ∈ Sample.values) ∧
        ∀ value ∈ Sample.node.columnValues, value ∈ Sample.values := by decide +kernel
  exact ⟨hdoc Sample.doc rfl fun value hmem => hown value (hlisted.1 value hmem),
    hentry Sample.entry fun value hmem => hown value (hlisted.2.1 value hmem),
    hrow .sqlite Sample.node fun value hmem => hown value (hlisted.2.2 value hmem),
    hkey _ _ _ _ Sample.nonce⟩

end Atlantide
