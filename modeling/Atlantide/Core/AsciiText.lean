import Atlantide.Core.Native

/-! # Texts in ASCII JSON

`json.dumps` writes a text in ASCII, every other character as the UTF-16 units it has. What is
written is read back as the text. -/

namespace Atlantide

open PrefixCode Canonical

/-! ## Hexadecimal digits -/

def digitValue (digit : Char) : Nat :=
  if digit.toNat < 0x3a then digit.toNat - 0x30 else digit.toNat - 0x57

theorem digitValue_digitChar {digit : Nat} (hdigit : digit < 16) :
    digitValue digit.digitChar = digit := by
  have hall : ∀ digit < 16, digitValue (Nat.digitChar digit) = digit := by
    decide +kernel
  exact hall digit hdigit

/-- The code that four digits write. -/
def hexValue (first second third fourth : Char) : Nat :=
  ((digitValue first * 16 + digitValue second) * 16 + digitValue third) * 16 + digitValue fourth

theorem hexDigits_eq {code : Nat} (hcode : code < 0x10000) :
    ∃ first second third fourth, hexDigits code = [first, second, third, fourth] ∧
      hexValue first second third fourth = code := by
  refine ⟨_, _, _, _, rfl, ?_⟩
  rw [hexValue, digitValue_digitChar (by omega), digitValue_digitChar (by omega),
    digitValue_digitChar (by omega), digitValue_digitChar (by omega)]
  omega

/-! ## Reading one character back -/

/-- The character that an escape's letter stands for. -/
def unescaped (letter : Char) : Char :=
  (([('b', '\x08'), ('f', '\x0c'), ('n', '\n'), ('r', '\r'), ('t', '\t')] :
    List (Char × Char)).lookup letter).getD letter

/-- The character that a string goes on with. -/
def nextChar : List Char → Option Char
  | [] => none
  | symbol :: rest =>
    if symbol = backslash then
      match rest with
      | 'u' :: first :: second :: third :: fourth :: rest =>
        let unit := hexValue first second third fourth
        if 0xd800 ≤ unit ∧ unit < 0xdc00 then
          match rest with
          | _ :: _ :: first :: second :: third :: fourth :: _ =>
            some (Char.ofNat (0x10000 + (unit - 0xd800) * 0x400 +
              (hexValue first second third fourth - 0xdc00)))
          | _ => none
        else some (Char.ofNat unit)
      | letter :: _ => some (unescaped letter)
      | [] => none
    else some symbol

theorem nextChar_letter {c letter : Char} (hletter : shortEscape c = some letter)
    (rest : List Char) : nextChar (backslash :: letter :: rest) = some c := by
  have hpair : ∃ entry ∈ [(quote, quote), (backslash, backslash), ('\x08', 'b'), ('\x0c', 'f'),
      ('\n', 'n'), ('\r', 'r'), ('\t', 't')], entry = (c, letter) := by
    obtain ⟨before, after, hsplit, -⟩ := List.lookup_eq_some_iff.mp hletter
    exact ⟨_, hsplit ▸ List.mem_append_right _ List.mem_cons_self, rfl⟩
  obtain ⟨entry, hmem, rfl⟩ := hpair
  simp only [List.mem_cons, List.not_mem_nil, or_false, Prod.mk.injEq] at hmem
  rcases hmem with h | h | h | h | h | h | h <;> obtain ⟨rfl, rfl⟩ := h <;> rfl

theorem nextChar_unit {code : Nat} (hcode : code < 0x10000)
    (hplain : ¬ (0xd800 ≤ code ∧ code < 0xdc00)) (rest : List Char) :
    nextChar (backslash :: 'u' :: (hexDigits code ++ rest)) = some (Char.ofNat code) := by
  obtain ⟨first, second, third, fourth, hdigits, hvalue⟩ := hexDigits_eq hcode
  rw [hdigits]
  simp only [List.cons_append, List.nil_append, nextChar, hvalue, if_neg hplain, if_true]

theorem nextChar_pair {high low : Nat} (hhigh : high < 0x400) (hlow : low < 0x400)
    (rest : List Char) :
    nextChar (backslash :: 'u' :: (hexDigits (0xd800 + high) ++
      backslash :: 'u' :: (hexDigits (0xdc00 + low) ++ rest))) =
        some (Char.ofNat (0x10000 + high * 0x400 + low)) := by
  obtain ⟨first, second, third, fourth, hdigits, hvalue⟩ :=
    @hexDigits_eq (0xd800 + high) (by omega)
  obtain ⟨first', second', third', fourth', hdigits', hvalue'⟩ :=
    @hexDigits_eq (0xdc00 + low) (by omega)
  have hsurrogate : 0xd800 ≤ 0xd800 + high ∧ 0xd800 + high < 0xdc00 := by omega
  rw [hdigits, hdigits']
  simp only [List.cons_append, List.nil_append, nextChar, hvalue, hvalue', if_pos hsurrogate,
    if_true, Nat.add_sub_cancel_left]

theorem nextChar_escaped (c : Char) (rest : List Char) :
    nextChar (asciiEscaped c ++ rest) = some c := by
  unfold asciiEscaped
  split
  case h_1 letter hletter => exact nextChar_letter hletter rest
  case h_2 hnone =>
    split
    · have hplain : c ≠ backslash := by
        rintro rfl
        revert hnone
        decide
      simp only [List.singleton_append, nextChar, if_neg hplain]
    · have hvalid := c.valid
      simp only [UInt32.isValidChar, Nat.isValidChar] at hvalid
      have hnat : c.val.toNat = c.toNat := rfl
      split
      · rename_i hsmall
        rw [List.cons_append, List.cons_append, nextChar_unit hsmall (by omega),
          Char.ofNat_toNat]
      · rename_i hlarge
        simp only [List.append_assoc, List.cons_append]
        rw [nextChar_pair (by omega) (by omega)]
        have hcode : 0x10000 + (c.toNat - 0x10000) / 0x400 * 0x400 + (c.toNat - 0x10000) % 0x400 =
            c.toNat := by
          omega
        rw [hcode, Char.ofNat_toNat]

/-! ## Whole strings -/

theorem reads_asciiEscaped (c : Char) : Reads everything asciiEscaped anything c := by
  intro other rest rest' _ _ _ heq
  have hsame : some c = some other := by
    rw [← nextChar_escaped c rest, heq, nextChar_escaped]
  obtain rfl := Option.some.inj hsame
  exact ⟨rfl, List.append_cancel_left heq⟩

theorem asciiEscaped_ne_quote (c : Char) (rest rest' : List Char) :
    asciiEscaped c ++ rest ≠ quote :: rest' := by
  intro heq
  unfold asciiEscaped at heq
  split at heq
  case h_1 letter _ =>
    rw [List.cons_append, List.cons.injEq] at heq
    exact absurd heq.1 (by decide)
  case h_2 hnone =>
    split at heq
    · rw [List.singleton_append, List.cons.injEq] at heq
      rw [heq.1] at hnone
      exact absurd hnone (by decide)
    · split at heq <;>
        · simp only [List.cons_append, List.cons.injEq] at heq
          exact absurd heq.1 (by decide)

/-- A text is told from any other, whatever follows. -/
theorem reads_asciiDumps (text : String) : Reads everything asciiDumps anything text := by
  intro other rest rest' _ hrest hrest' heq
  rw [asciiDumps, asciiDumps, List.cons_append, List.cons_append, List.cons.injEq] at heq
  obtain ⟨hsame, hafter⟩ := reads_quoted reads_asciiEscaped asciiEscaped_ne_quote text.toList
    other.toList rest rest' trivial hrest hrest' heq.2
  exact ⟨String.toList_inj.mp hsame, hafter⟩

end Atlantide
