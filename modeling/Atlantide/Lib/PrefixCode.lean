import Mathlib.Data.List.Basic
import Mathlib.Data.List.Infix

/-! # Texts that can be read back

A text is read back unambiguously if, before any of the endings it can stand before, no other value
has a text that starts the same way. Such texts can be put one after another: in pairs, and in lists
with separators and a closing symbol. -/

namespace PrefixCode

variable {C α β : Type}

/-- Before an ending, the value's text is no other value's of the domain, and the ending can be
told. -/
def Reads (domain : α → Prop) (text : α → List C) (ending : List C → Prop) (value : α) : Prop :=
  ∀ (other : α) (rest rest' : List C), domain other → ending rest → ending rest' →
    text value ++ rest = text other ++ rest' → value = other ∧ rest = rest'

/-- Any value. -/
def everything (_ : α) : Prop := True

/-- Anything may follow. -/
def anything (_ : List C) : Prop := True

/-- The next symbol, if there is one, is not among those that `within` accepts. -/
def Stops (within : C → Prop) (rest : List C) : Prop := ∀ symbol ∈ rest.head?, ¬ within symbol

/-- Words of accepted symbols are told apart where no accepted symbol follows. -/
theorem append_inj_of_stops {within : C → Prop} {word word' rest rest' : List C}
    (hword : ∀ symbol ∈ word, within symbol) (hword' : ∀ symbol ∈ word', within symbol)
    (hrest : Stops within rest) (hrest' : Stops within rest')
    (heq : word ++ rest = word' ++ rest') : word = word' ∧ rest = rest' := by
  induction word generalizing word' with
  | nil =>
    cases word' with
    | nil => exact ⟨rfl, heq⟩
    | cons symbol word' =>
      rw [List.nil_append, List.cons_append] at heq
      exact (hrest symbol (by rw [heq]; rfl) (hword' symbol List.mem_cons_self)).elim
  | cons symbol word ih =>
    cases word' with
    | nil =>
      rw [List.nil_append, List.cons_append] at heq
      exact (hrest' symbol (by rw [← heq]; rfl) (hword symbol List.mem_cons_self)).elim
    | cons symbol' word' =>
      rw [List.cons_append, List.cons_append, List.cons.injEq] at heq
      obtain ⟨rfl, heq⟩ := heq
      obtain ⟨rfl, hrest⟩ := ih (fun other hmem => hword other (List.mem_cons_of_mem _ hmem))
        (fun other hmem => hword' other (List.mem_cons_of_mem _ hmem)) heq
      exact ⟨rfl, hrest⟩

/-! ## Sequences of symbols each written as a code -/

/-- A sequence, each symbol by its code, up to the closing symbol. -/
def quoted (code : α → List C) (close : C) (symbols : List α) : List C :=
  symbols.flatMap code ++ [close]

theorem quoted_cons (code : α → List C) (close : C) (symbol : α) (symbols : List α) :
    quoted code close (symbol :: symbols) = code symbol ++ quoted code close symbols := by
  rw [quoted, List.flatMap_cons, List.append_assoc, quoted]

theorem reads_quoted {code : α → List C} {close : C} (hcode : ∀ symbol, Reads everything code anything symbol)
    (hclose : ∀ symbol rest rest', code symbol ++ rest ≠ close :: rest') (symbols : List α) :
    Reads everything (quoted code close) anything symbols := by
  induction symbols with
  | nil =>
    intro other rest rest' hdomain _ _ heq
    cases other with
    | nil =>
      rw [quoted, List.flatMap_nil, List.nil_append, List.singleton_append,
        List.singleton_append, List.cons.injEq] at heq
      exact ⟨rfl, heq.2⟩
    | cons symbol symbols =>
      rw [quoted_cons, List.append_assoc] at heq
      exact (hclose symbol _ _ heq.symm).elim
  | cons symbol symbols ih =>
    intro other rest rest' hdomain hrest hrest' heq
    cases other with
    | nil =>
      rw [quoted_cons, List.append_assoc] at heq
      exact (hclose symbol _ _ heq).elim
    | cons symbol' symbols' =>
      rw [quoted_cons, quoted_cons, List.append_assoc, List.append_assoc] at heq
      obtain ⟨rfl, hafter⟩ := hcode symbol symbol' _ _ trivial trivial trivial heq
      obtain ⟨rfl, hrest⟩ := ih symbols' rest rest' trivial hrest hrest' hafter
      exact ⟨rfl, hrest⟩

/-! ## Lists with separators -/

/-- What follows the first item: each further one after a separator, then the closing symbol. -/
def following (separator close : C) (text : α → List C) : List α → List C
  | [] => [close]
  | item :: items => separator :: text item ++ following separator close text items

def separated (separator close : C) (text : α → List C) : List α → List C
  | [] => [close]
  | item :: items => text item ++ following separator close text items

section

variable {separator close : C} {text : α → List C} {ending : List C → Prop} {domain : α → Prop}

/-- The items joined by the separator, and closed. -/
theorem intercalate_append (items : List α) :
    [separator].intercalate (items.map text) ++ [close] = separated separator close text items := by
  cases items with
  | nil => rfl
  | cons item items =>
    induction items generalizing item with
    | nil => rw [List.map_singleton, List.intercalate_singleton, separated, following]
    | cons next items ih =>
      have hnext := ih next
      rw [List.map_cons] at hnext ⊢
      rw [List.map_cons, List.intercalate_cons_cons, List.append_assoc, List.append_assoc, hnext,
        separated, separated, following, List.singleton_append, List.cons_append]

theorem ending_following (hending : ∀ rest, ending (separator :: rest) ∧ ending (close :: rest))
    (items : List α) (rest : List C) : ending (following separator close text items ++ rest) := by
  cases items with
  | nil => exact (hending rest).2
  | cons item items =>
    rw [following, List.cons_append, List.cons_append]
    exact (hending _).1

theorem reads_following (hne : separator ≠ close)
    (hending : ∀ rest, ending (separator :: rest) ∧ ending (close :: rest)) {items : List α}
    (hitems : ∀ item ∈ items, Reads domain text ending item) :
    Reads (∀ item ∈ ·, domain item) (following separator close text) anything items := by
  induction items with
  | nil =>
    intro other rest rest' hdomain _ _ heq
    cases other with
    | nil =>
      rw [following, List.singleton_append, List.singleton_append, List.cons.injEq] at heq
      exact ⟨rfl, heq.2⟩
    | cons item items =>
      rw [following, following, List.singleton_append, List.cons_append, List.cons_append,
        List.cons.injEq] at heq
      exact (hne heq.1.symm).elim
  | cons item items ih =>
    obtain ⟨hitem, hitems⟩ := List.forall_mem_cons.mp hitems
    intro other rest rest' hdomain hrest hrest' heq
    cases other with
    | nil =>
      rw [following, following, List.singleton_append, List.cons_append, List.cons_append,
        List.cons.injEq] at heq
      exact (hne heq.1).elim
    | cons item' items' =>
      rw [following, following, List.cons_append, List.cons_append, List.cons_append,
        List.cons_append, List.cons.injEq, List.append_assoc, List.append_assoc] at heq
      obtain ⟨rfl, hafter⟩ := hitem item' _ _ (hdomain item' List.mem_cons_self) (ending_following hending items rest)
        (ending_following hending items' rest') heq.2
      obtain ⟨rfl, hrest⟩ := ih hitems items' rest rest' (fun item hmem => hdomain item (List.mem_cons_of_mem _ hmem)) hrest hrest' hafter
      exact ⟨rfl, hrest⟩

/-- A list of texts that can be read back can be read back. -/
theorem reads_separated (hne : separator ≠ close)
    (hending : ∀ rest, ending (separator :: rest) ∧ ending (close :: rest))
    (hclose : ∀ item rest rest', domain item → text item ++ rest ≠ close :: rest') {items : List α}
    (hself : ∀ item ∈ items, domain item) (hitems : ∀ item ∈ items, Reads domain text ending item) :
    Reads (∀ item ∈ ·, domain item) (separated separator close text) anything items := by
  intro other rest rest' hdomain hrest hrest' heq
  cases items with
  | nil =>
    cases other with
    | nil =>
      rw [separated, List.singleton_append, List.singleton_append, List.cons.injEq] at heq
      exact ⟨rfl, heq.2⟩
    | cons item items =>
      rw [separated, separated, List.append_assoc] at heq
      exact (hclose item _ _ (hdomain item List.mem_cons_self) heq.symm).elim
  | cons item items =>
    obtain ⟨hitem, hitems⟩ := List.forall_mem_cons.mp hitems
    cases other with
    | nil =>
      rw [separated, separated, List.append_assoc] at heq
      exact (hclose item _ _ (hself item List.mem_cons_self) heq).elim
    | cons item' items' =>
      rw [separated, separated, List.append_assoc, List.append_assoc] at heq
      obtain ⟨rfl, hafter⟩ := hitem item' _ _ (hdomain item' List.mem_cons_self) (ending_following hending items rest)
        (ending_following hending items' rest') heq
      obtain ⟨rfl, hrest⟩ :=
        reads_following hne hending hitems items' rest rest'
          (fun item hmem => hdomain item (List.mem_cons_of_mem _ hmem)) hrest hrest' hafter
      exact ⟨rfl, hrest⟩

end

/-- Two texts one after the other. -/
theorem reads_append {first : α → List C} {second : β → List C} {ending ending' : List C → Prop}
    {domain : α → Prop} {domain' : β → Prop} {pair : α × β}
    (hfirst : Reads domain first ending pair.1) (hself : domain' pair.2)
    (hending : ∀ value rest, domain' value → ending (second value ++ rest))
    (hsecond : Reads domain' second ending' pair.2) :
    Reads (fun pair => domain pair.1 ∧ domain' pair.2)
      (fun pair => first pair.1 ++ second pair.2) ending' pair := by
  intro other rest rest' hdomain hrest hrest' heq
  rw [List.append_assoc, List.append_assoc] at heq
  obtain ⟨hsame, hafter⟩ := hfirst other.1 _ _ hdomain.1 (hending _ _ hself)
    (hending _ _ hdomain.2) heq
  obtain ⟨hsame', hrest⟩ := hsecond other.2 rest rest' hdomain.2 hrest hrest' hafter
  exact ⟨Prod.ext hsame hsame', hrest⟩

/-- Texts that are read back whatever follows are told apart in a row. -/
theorem flatMap_inj {domain : α → Prop} {text : α → List C} {items others : List α}
    (hreads : ∀ item, domain item → Reads domain text anything item)
    (hsome : ∀ item, domain item → text item ≠ []) (hitems : ∀ item ∈ items, domain item)
    (hothers : ∀ item ∈ others, domain item) (heq : items.flatMap text = others.flatMap text) :
    items = others := by
  induction items generalizing others with
  | nil =>
    cases others with
    | nil => rfl
    | cons other others =>
      have hnone := (List.append_eq_nil_iff.mp heq.symm).1
      exact absurd hnone (hsome other (hothers other List.mem_cons_self))
  | cons item items ih =>
    obtain ⟨hitem, hitems⟩ := List.forall_mem_cons.mp hitems
    cases others with
    | nil => exact absurd (List.append_eq_nil_iff.mp heq).1 (hsome item hitem)
    | cons other others =>
      obtain ⟨hother, hrest⟩ := List.forall_mem_cons.mp hothers
      rw [List.flatMap_cons, List.flatMap_cons] at heq
      obtain ⟨rfl, hafter⟩ := hreads item hitem other _ _ hother trivial trivial heq
      rw [ih hitems hrest hafter]

end PrefixCode
