import Std.Data.String.ToInt
import Atlantide.Core.Markers
import Atlantide.Lib.PrefixCode

/-! # Canonical JSON

The same value always has the same text: object keys sorted, nothing between the tokens, strings
escaped as little as possible. Two values with one text are the same value. -/

namespace Atlantide

open PrefixCode

namespace Canonical

def quote : Char := '\x22'

def backslash : Char := '\x5c'

def openBrace : Char := '\x7b'

def closeBrace : Char := '\x7d'

/-- The letter of a two-character escape. -/
def shortEscape (c : Char) : Option Char :=
  [(quote, quote), (backslash, backslash), ('\x08', 'b'), ('\x0c', 'f'), ('\n', 'n'), ('\r', 'r'),
    ('\t', 't')].lookup c

/-- What stands for a character within a string. -/
def escaped (c : Char) : List Char :=
  match shortEscape c with
  | some letter => [backslash, letter]
  | none =>
    if c.toNat < 0x20 then
      [backslash, 'u', '0', '0', Nat.digitChar (c.toNat / 16), Nat.digitChar (c.toNat % 16)]
    else [c]

/-- `json.dumps(text, ensure_ascii=False)`. -/
def dumps (text : String) : List Char := quote :: quoted escaped quote text.toList

end Canonical

open Canonical

namespace Value

mutual

/-- The canonical text of a value. -/
def text : Value → List Char
  | null => ['n', 'u', 'l', 'l']
  | bool true => ['t', 'r', 'u', 'e']
  | bool false => ['f', 'a', 'l', 's', 'e']
  | int value => (toString value).toList
  | float repr => repr.toList
  | str value => dumps value
  | list items => '[' :: ([','].intercalate (itemTexts items) ++ [']'])
  | dict fields => openBrace :: ([','].intercalate (fieldTexts fields) ++ [closeBrace])

def itemTexts : List Value → List (List Char)
  | [] => []
  | item :: items => item.text :: itemTexts items

def fieldTexts : List (String × Value) → List (List Char)
  | [] => []
  | (name, value) :: fields => (dumps name ++ ':' :: value.text) :: fieldTexts fields

end

end Value

namespace Canonical

/-! ## Strings -/

/-- The characters that are escaped. -/
def specials : List Char := quote :: backslash :: (List.range 0x20).map Char.ofNat

theorem mem_specials {c : Char} (hsmall : c.toNat < 0x20) : c ∈ specials := by
  refine List.mem_cons_of_mem _ (List.mem_cons_of_mem _ (List.mem_map.mpr ⟨c.toNat, ?_, ?_⟩))
  · exact List.mem_range.mpr hsmall
  · exact Char.ofNat_toNat c

theorem escaped_of_plain {c : Char} (hplain : c ∉ specials) : escaped c = [c] := by
  have hlarge : ¬ c.toNat < 0x20 := fun hsmall => hplain (mem_specials hsmall)
  have hnone : shortEscape c = none := by
    refine List.lookup_eq_none_iff.mpr fun entry hentry => ?_
    have hall : ∀ entry ∈ [(quote, quote), (backslash, backslash), ('\x08', 'b'), ('\x0c', 'f'),
        ('\n', 'n'), ('\r', 'r'), ('\t', 't')], entry.1 ∈ specials := by
      decide +kernel
    exact bne_iff_ne.mpr fun heq => hplain (heq ▸ hall entry hentry)
  rw [escaped, hnone]
  exact if_neg hlarge

theorem escaped_special {c : Char} (hspecial : c ∈ specials) :
    ∃ rest, escaped c = backslash :: rest := by
  have hall : (specials.all fun c => (escaped c).head? = some backslash) = true := by
    decide +kernel
  have hhead := of_decide_eq_true (List.all_eq_true.mp hall c hspecial)
  exact ⟨_, List.eq_cons_of_mem_head? hhead⟩

/-- No escape starts another. -/
theorem escaped_starts {c other : Char} (hspecial : c ∈ specials) (hother : other ∈ specials)
    (hstarts : (escaped c).isPrefixOf (escaped other) = true) : c = other := by
  have hall : (specials.all fun c => specials.all fun other =>
      !(escaped c).isPrefixOf (escaped other) || c == other) = true := by
    decide +kernel
  have hpair := List.all_eq_true.mp (List.all_eq_true.mp hall c hspecial) other hother
  rw [hstarts] at hpair
  exact beq_iff_eq.mp hpair

theorem reads_escaped (c : Char) : Reads everything escaped anything c := by
  intro other rest rest' _ _ _ heq
  have hbackslash : backslash ∈ specials := by decide +kernel
  by_cases hspecial : c ∈ specials
  · by_cases hother : other ∈ specials
    · have hsame : c = other := by
        rcases List.prefix_or_prefix_of_prefix (heq ▸ List.prefix_append _ _)
          (List.prefix_append (escaped other) rest') with hfirst | hsecond
        · exact escaped_starts hspecial hother (List.isPrefixOf_iff_prefix.mpr hfirst)
        · exact (escaped_starts hother hspecial (List.isPrefixOf_iff_prefix.mpr hsecond)).symm
      subst hsame
      exact ⟨rfl, List.append_cancel_left heq⟩
    · obtain ⟨tail, htail⟩ := escaped_special hspecial
      rw [htail, escaped_of_plain hother, List.cons_append, List.cons_append,
        List.cons.injEq] at heq
      exact (hother (heq.1 ▸ hbackslash)).elim
  · rw [escaped_of_plain hspecial, List.singleton_append] at heq
    by_cases hother : other ∈ specials
    · obtain ⟨tail, htail⟩ := escaped_special hother
      rw [htail, List.cons_append, List.cons.injEq] at heq
      exact (hspecial (heq.1 ▸ hbackslash)).elim
    · rwa [escaped_of_plain hother, List.singleton_append, List.cons.injEq] at heq

theorem escaped_ne_quote (c : Char) (rest rest' : List Char) :
    escaped c ++ rest ≠ quote :: rest' := by
  intro heq
  by_cases hspecial : c ∈ specials
  · obtain ⟨tail, htail⟩ := escaped_special hspecial
    rw [htail, List.cons_append, List.cons.injEq] at heq
    exact absurd heq.1 (by decide)
  · rw [escaped_of_plain hspecial, List.singleton_append, List.cons.injEq] at heq
    exact hspecial (heq.1 ▸ List.mem_cons_self)

/-- A string is told from any other, whatever follows. -/
theorem reads_dumps (text : String) : Reads everything dumps anything text := by
  intro other rest rest' _ hrest hrest' heq
  rw [dumps, dumps, List.cons_append, List.cons_append, List.cons.injEq] at heq
  obtain ⟨hsame, hrest⟩ :=
    reads_quoted reads_escaped escaped_ne_quote text.toList other.toList rest rest' trivial hrest hrest' heq.2
  exact ⟨String.toList_inj.mp hsame, hrest⟩

/-! ## Numbers -/

/-- The symbols of numbers. -/
def Numeric (c : Char) : Prop := c.isDigit = true ∨ c ∈ ['-', '+', '.', 'e']

instance (c : Char) : Decidable (Numeric c) := inferInstanceAs (Decidable (_ ∨ _))

/-- What the `repr` of a finite float looks like: a number, with a point or an exponent. -/
def FloatText (repr : String) : Prop :=
  (∀ c ∈ repr.toList, Numeric c) ∧ ∃ c ∈ repr.toList, c ∈ ['.', 'e']

instance (repr : String) : Decidable (FloatText repr) :=
  @instDecidableAnd _ _ (List.decidableBAll _ _) (List.decidableBEx _ _)

theorem int_text (value : Int) : (toString value).toList ≠ [] ∧
    ∀ c ∈ (toString value).toList, c.isDigit = true ∨ c = '-' := by
  have hdigits : ∀ n : Nat, ∀ c ∈ n.repr.toList, c.isDigit = true := by
    intro n c hc
    rw [Nat.toList_repr] at hc
    exact Nat.isDigit_of_mem_toDigits (by decide) (by decide) hc
  rw [Int.toString_eq_repr]
  cases value with
  | ofNat n =>
    refine ⟨?_, fun c hc => .inl (hdigits n c hc)⟩
    change n.repr.toList ≠ []
    rw [Nat.toList_repr]
    exact Nat.toDigits_ne_nil
  | negSucc n =>
    change ("-" ++ (n + 1).repr).toList ≠ [] ∧ ∀ c ∈ ("-" ++ (n + 1).repr).toList, _
    rw [String.toList_append]
    refine ⟨List.cons_ne_nil _ _, fun c hc => ?_⟩
    rcases List.mem_append.mp hc with hsign | hdigit
    · exact .inr (List.mem_singleton.mp hsign)
    · exact .inl (hdigits (n + 1) c hdigit)

theorem int_text_injective {value other : Int}
    (hsame : (toString value).toList = (toString other).toList) : value = other := by
  rw [Int.toString_eq_repr, Int.toString_eq_repr, String.toList_inj] at hsame
  exact Int.repr_inj.mp hsame

theorem int_text_numeric (value : Int) : ∀ c ∈ (toString value).toList, Numeric c := by
  intro c hc
  rcases (int_text value).2 c hc with hdigit | rfl
  · exact .inl hdigit
  · exact .inr List.mem_cons_self

/-- No float is written as an integer. -/
theorem int_text_ne_float {value : Int} {repr : String} (hfloat : FloatText repr) :
    (toString value).toList ≠ repr.toList := by
  intro heq
  obtain ⟨-, c, hmem, hmark⟩ := hfloat
  have hapart : ∀ c ∈ ['.', 'e'], ¬ (c.isDigit = true ∨ c = '-') := by simp [Char.isDigit]
  exact hapart c hmark ((int_text value).2 c (heq ▸ hmem))

end Canonical

namespace Value

/-- Every float in the value is a float's `repr`. -/
def FloatsPrinted (value : Value) : Prop :=
  value.any (fun part => match part with
    | float repr => !decide (FloatText repr)
    | _ => false) = false

theorem FloatsPrinted.child {value child : Value} (hprinted : value.FloatsPrinted)
    (hchild : child ∈ value.children) : child.FloatsPrinted := by
  rw [FloatsPrinted, any_eq, Bool.or_eq_false_iff, List.any_eq_false] at hprinted
  exact Bool.eq_false_iff.mpr (hprinted.2 child hchild)

theorem FloatsPrinted.float {repr : String} (hprinted : (Value.float repr).FloatsPrinted) :
    FloatText repr := by
  rw [FloatsPrinted, any_eq, Bool.or_eq_false_iff] at hprinted
  simpa using hprinted.1

theorem itemTexts_eq (items : List Value) : itemTexts items = items.map text := by
  induction items with
  | nil => rfl
  | cons item items ih => rw [itemTexts, ih, List.map_cons]

/-- The text of a key with its value. -/
def entryText (entry : String × Value) : List Char := dumps entry.1 ++ ':' :: entry.2.text

theorem fieldTexts_eq (fields : List (String × Value)) : fieldTexts fields = fields.map entryText := by
  induction fields with
  | nil => rfl
  | cons entry fields ih => rw [fieldTexts, ih, List.map_cons, entryText]

/-- What the first symbol of a text says of the value. -/
inductive Kind
  | null
  | true
  | false
  | number
  | str
  | list
  | dict
  deriving DecidableEq

def kind : Value → Kind
  | null => .null
  | bool true => .true
  | bool false => .false
  | int _ | float _ => .number
  | str _ => .str
  | list _ => .list
  | dict _ => .dict

def kindOf (c : Char) : Option Kind :=
  if c = 'n' then some .null
  else if c = 't' then some .true
  else if c = 'f' then some .false
  else if c = quote then some .str
  else if c = '[' then some .list
  else if c = openBrace then some .dict
  else if Numeric c then some .number
  else none

theorem kindOf_numeric {c : Char} (hnumeric : Numeric c) : kindOf c = some .number := by
  have hne : ∀ other : Char, ¬ Numeric other → c ≠ other := fun other hnot heq => hnot (heq ▸ hnumeric)
  rw [kindOf, if_neg (hne _ (by decide)), if_neg (hne _ (by decide)), if_neg (hne _ (by decide)),
    if_neg (hne _ (by decide)), if_neg (hne _ (by decide)), if_neg (hne _ (by decide)),
    if_pos hnumeric]

/-- A text is not empty, and starts with a symbol of the value's kind. -/
theorem text_head {value : Value} (hprinted : value.FloatsPrinted) :
    ∃ c rest, value.text = c :: rest ∧ kindOf c = some value.kind := by
  cases value with
  | null => exact ⟨_, _, rfl, by decide⟩
  | bool value =>
    cases value with
    | true => exact ⟨_, _, rfl, by decide⟩
    | false => exact ⟨_, _, rfl, by decide⟩
  | int value =>
    obtain ⟨hne, hall⟩ := int_text value
    obtain ⟨c, rest, htext⟩ := List.exists_cons_of_ne_nil hne
    refine ⟨c, rest, htext, kindOf_numeric ?_⟩
    rcases hall c (htext ▸ List.mem_cons_self) with hdigit | rfl
    · exact .inl hdigit
    · exact .inr List.mem_cons_self
  | float repr =>
    obtain ⟨hall, c, hmem, -⟩ := hprinted.float
    obtain ⟨first, rest, htext⟩ := List.exists_cons_of_ne_nil (List.ne_nil_of_mem hmem)
    exact ⟨first, rest, htext, kindOf_numeric (hall first (htext ▸ List.mem_cons_self))⟩
  | str value => exact ⟨quote, _, rfl, (by decide : kindOf quote = some .str)⟩
  | list items => exact ⟨'[', _, rfl, (by decide : kindOf '[' = some .list)⟩
  | dict fields => exact ⟨openBrace, _, rfl, (by decide : kindOf openBrace = some .dict)⟩

/-- Texts that start alike are of values of one kind. -/
theorem kind_eq {value other : Value} (hprinted : value.FloatsPrinted)
    (hother : other.FloatsPrinted) {rest rest' : List Char}
    (heq : value.text ++ rest = other.text ++ rest') : value.kind = other.kind := by
  obtain ⟨c, tail, htext, hkind⟩ := text_head hprinted
  obtain ⟨c', tail', htext', hkind'⟩ := text_head hother
  rw [htext, htext', List.cons_append, List.cons_append, List.cons.injEq] at heq
  rw [heq.1, hkind', Option.some.injEq] at hkind
  exact hkind.symm

/-- A text never starts with a symbol that starts none. -/
theorem text_ne_cons {value : Value} (hprinted : value.FloatsPrinted) {c : Char}
    (hstart : kindOf c = none) (rest rest' : List Char) : value.text ++ rest ≠ c :: rest' := by
  intro heq
  obtain ⟨c', tail, htext, hkind⟩ := text_head hprinted
  rw [htext, List.cons_append, List.cons.injEq] at heq
  rw [heq.1, hstart] at hkind
  cases hkind

/-- What may follow a value: a symbol that is no part of a number, or nothing. -/
def Ends : List Char → Prop := Stops Numeric

theorem ends_cons {c : Char} (hstop : ¬ Numeric c) (rest : List Char) : Ends (c :: rest) := by
  intro symbol hsymbol
  cases hsymbol
  exact hstop

/-- The entries of an object whose values are printed floats or contain them. -/
def EntryPrinted (entry : String × Value) : Prop := everything entry.1 ∧ entry.2.FloatsPrinted

theorem entryText_ne_close (entry : String × Value) (rest rest' : List Char) :
    entryText entry ++ rest ≠ closeBrace :: rest' := by
  intro heq
  rw [entryText, dumps, List.cons_append, List.cons_append, List.cons.injEq] at heq
  exact absurd heq.1 (by decide)

theorem reads_entryText {entry : String × Value} (hprinted : entry.2.FloatsPrinted)
    (hvalue : Reads FloatsPrinted text Ends entry.2) :
    Reads EntryPrinted entryText Ends entry := by
  have hcolon : Reads FloatsPrinted (fun value => ':' :: value.text) Ends entry.2 := by
    intro other rest rest' hother hrest hrest' heq
    rw [List.cons_append, List.cons_append, List.cons.injEq] at heq
    exact hvalue other rest rest' hother hrest hrest' heq.2
  exact reads_append (reads_dumps entry.1) hprinted (fun _ _ _ => trivial) hcolon

theorem reads_numbers {word word' rest rest' : List Char} (hword : ∀ c ∈ word, Numeric c)
    (hword' : ∀ c ∈ word', Numeric c) (hrest : Ends rest) (hrest' : Ends rest')
    (heq : word ++ rest = word' ++ rest') : word = word' ∧ rest = rest' :=
  append_inj_of_stops hword hword' hrest hrest' heq

/-- **A text is one value's.** -/
theorem reads_text (value : Value) (hprinted : value.FloatsPrinted) :
    Reads FloatsPrinted text Ends value := by
  induction value using ind with
  | step value ih =>
    intro other rest rest' hother hrest hrest' heq
    have hkind := kind_eq hprinted hother heq
    have hchildren : ∀ child ∈ value.children, Reads FloatsPrinted text Ends child :=
      fun child hchild => ih child hchild (hprinted.child hchild)
    cases value with
    | null =>
      cases other with
      | null => exact ⟨rfl, List.append_cancel_left heq⟩
      | bool flag => cases flag <;> cases hkind
      | _ => cases hkind
    | bool flag =>
      cases other with
      | bool flag' =>
        obtain rfl : flag = flag' := by cases flag <;> cases flag' <;> trivial
        exact ⟨rfl, List.append_cancel_left heq⟩
      | _ => cases flag <;> cases hkind
    | int number =>
      cases other with
      | int number' =>
        obtain ⟨hsame, hafter⟩ := reads_numbers (int_text_numeric number)
          (int_text_numeric number') hrest hrest' heq
        exact ⟨congrArg int (int_text_injective hsame), hafter⟩
      | float repr =>
        obtain ⟨hsame, -⟩ := reads_numbers (int_text_numeric number) hother.float.1 hrest hrest' heq
        exact (int_text_ne_float hother.float hsame).elim
      | bool flag => cases flag <;> cases hkind
      | _ => cases hkind
    | float repr =>
      cases other with
      | int number =>
        obtain ⟨hsame, -⟩ := reads_numbers hprinted.float.1 (int_text_numeric number) hrest hrest' heq
        exact (int_text_ne_float hprinted.float hsame.symm).elim
      | float repr' =>
        obtain ⟨hsame, hafter⟩ := reads_numbers hprinted.float.1 hother.float.1 hrest hrest' heq
        exact ⟨congrArg float (String.toList_inj.mp hsame), hafter⟩
      | bool flag => cases flag <;> cases hkind
      | _ => cases hkind
    | str text =>
      cases other with
      | str text' =>
        obtain ⟨rfl, hafter⟩ := reads_dumps text text' rest rest' trivial trivial trivial heq
        exact ⟨rfl, hafter⟩
      | bool flag => cases flag <;> cases hkind
      | _ => cases hkind
    | list items =>
      cases other with
      | list items' =>
        rw [text, text, itemTexts_eq, itemTexts_eq, intercalate_append, intercalate_append,
          List.cons_append, List.cons_append, List.cons.injEq] at heq
        have hreads := @reads_separated Char Value ',' ']' text Ends Value.FloatsPrinted
          (by decide) (fun rest => ⟨ends_cons (by decide) rest, ends_cons (by decide) rest⟩)
          (fun item rest rest' hitem => text_ne_cons hitem (by decide) rest rest') items
          (fun item hitem => hprinted.child hitem) hchildren
        obtain ⟨rfl, hafter⟩ := hreads items' rest rest' (fun item hitem => hother.child hitem)
          trivial trivial heq.2
        exact ⟨rfl, hafter⟩
      | bool flag => cases flag <;> cases hkind
      | _ => cases hkind
    | dict fields =>
      cases other with
      | dict fields' =>
        rw [text, text, fieldTexts_eq, fieldTexts_eq, intercalate_append, intercalate_append,
          List.cons_append, List.cons_append, List.cons.injEq] at heq
        have hentries : ∀ fields : List (String × Value), (dict fields).FloatsPrinted →
            ∀ entry ∈ fields, EntryPrinted entry :=
          fun fields hprinted entry hentry =>
            ⟨trivial, hprinted.child (List.mem_map_of_mem hentry)⟩
        have hreads := @reads_separated Char (String × Value) ',' closeBrace _ Ends EntryPrinted
          (by decide) (fun rest => ⟨ends_cons (by decide) rest, ends_cons (by decide) rest⟩)
          (fun entry rest rest' _ => entryText_ne_close entry rest rest') fields
          (hentries fields hprinted) fun entry hentry =>
            reads_entryText (hentries fields hprinted entry hentry).2
              (hchildren entry.2 (List.mem_map_of_mem hentry))
        obtain ⟨rfl, hafter⟩ := hreads fields' rest rest' (hentries fields' hother)
          trivial trivial heq.2
        exact ⟨rfl, hafter⟩
      | bool flag => cases flag <;> cases hkind
      | _ => cases hkind

/-- Two values with one text are the same. -/
theorem text_injective {value other : Value} (hprinted : value.FloatsPrinted)
    (hother : other.FloatsPrinted) (hsame : value.text = other.text) : value = other := by
  have hend : Ends [] := fun symbol hsymbol => by cases hsymbol
  refine (reads_text value hprinted other [] [] hother hend hend ?_).1
  rw [List.append_nil, List.append_nil, hsame]

end Value

end Atlantide
