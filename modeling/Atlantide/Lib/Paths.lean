import Mathlib.Data.List.Infix

/-! # Paths, links and where they lead

A file tree maps paths of names to entries. A path is resolved name by name: `..` steps back, a link
puts its target's names in front of those still to come, and after `limit` links the resolution gives
up. A tree of relative links that stands inside another one is told apart from what surrounds it: a
resolution that never steps back from the inner tree's root ends inside it, or nowhere. -/

namespace Paths

abbrev Path := List String

/-- A link's text, split at its separators. -/
structure Target where
  absolute : Bool := false
  parts : List String
  deriving DecidableEq, Repr

inductive Entry
  | dir
  | file
  | special
  | link (target : Target)
  deriving DecidableEq, Repr

/-- Every entry stands in a directory, and only finitely many are links. -/
structure FileTree where
  entries : Path → Option Entry
  root : entries [] = some .dir
  parents : ∀ path name, (entries (path ++ [name])).isSome → entries path = some .dir
  links : List Path
  linked : ∀ path target, entries path = some (.link target) → path ∈ links

theorem mem_of_lookup {listed : List (Path × Entry)} {path : Path} {entry : Entry}
    (hentry : listed.lookup path = some entry) : (path, entry) ∈ listed := by
  obtain ⟨before, after, rfl, -⟩ := List.lookup_eq_some_iff.mp hentry
  exact List.mem_append_right _ (List.mem_cons_self ..)

/-- The tree of the listed entries. -/
def FileTree.ofList (listed : List (Path × Entry)) (hroot : listed.lookup [] = some .dir)
    (hparents : ∀ pair ∈ listed, pair.1 = [] ∨ listed.lookup pair.1.dropLast = some .dir) :
    FileTree where
  entries path := listed.lookup path
  root := hroot
  parents path name hentry := by
    obtain ⟨entry, hentry⟩ := Option.isSome_iff_exists.mp hentry
    have hmem := mem_of_lookup hentry
    rcases hparents _ hmem with hempty | hparent
    · simp at hempty
    · rwa [List.dropLast_concat] at hparent
  links := listed.map Prod.fst
  linked path target hentry := by
    exact List.mem_map_of_mem (mem_of_lookup hentry)

/-- The names in the links' targets. -/
def FileTree.linkParts (tree : FileTree) : List String :=
  tree.links.flatMap fun path => match tree.entries path with
    | some (.link target) => target.parts
    | _ => []

theorem FileTree.mem_linkParts (tree : FileTree) {path : Path} {target : Target}
    (hlink : tree.entries path = some (.link target)) {part : String} (hmem : part ∈ target.parts) :
    part ∈ tree.linkParts := by
  refine List.mem_flatMap.mpr ⟨path, tree.linked path target hlink, ?_⟩
  rw [hlink]
  exact hmem

/-- A name that leaves a path where it is. -/
def stays (part : String) : Bool := part = "" || part = "."

/-! ## Resolving a path -/

/-- Where the names lead from the directory `path`; `follow` resolves what a link is replaced by. -/
def walk (tree : FileTree) (follow : Path → List String → Option Path) :
    Path → List String → Option Path
  | path, [] => some path
  | path, part :: rest =>
    if stays part then walk tree follow path rest
    else if part = ".." then walk tree follow path.dropLast rest
    else match tree.entries (path ++ [part]) with
      | none => none
      | some .dir => walk tree follow (path ++ [part]) rest
      | some (.link target) => follow (if target.absolute then [] else path) (target.parts ++ rest)
      | some _ => if rest = [] then some (path ++ [part]) else none

/-- Where the system finds the names from the directory `path`, following at most `limit` links. -/
def resolve (tree : FileTree) : Nat → Path → List String → Option Path
  | 0 => walk tree fun _ _ => none
  | limit + 1 => walk tree (resolve tree limit)

/-- Whether the names step back from the root; `follow` judges what a link is replaced by. -/
def stepsOut (tree : FileTree) (follow : Path → List String → Bool) : Path → List String → Bool
  | _, [] => false
  | path, part :: rest =>
    if stays part then stepsOut tree follow path rest
    else if part = ".." then path.isEmpty || stepsOut tree follow path.dropLast rest
    else match tree.entries (path ++ [part]) with
      | some .dir => stepsOut tree follow (path ++ [part]) rest
      | some (.link target) => follow path (target.parts ++ rest)
      | _ => false

/-- Whether resolving the names from the directory `path` ever steps back past the root. -/
def climbs (tree : FileTree) : Nat → Path → List String → Bool
  | 0 => stepsOut tree fun _ _ => false
  | limit + 1 => stepsOut tree (climbs tree limit)

/-! ## A tree inside another -/

def FileTree.Relative (tree : FileTree) : Prop :=
  ∀ path target, tree.entries path = some (.link target) → target.absolute = false

/-- The whole tree at `place` is `inner`. -/
def FileTree.HasAt (tree : FileTree) (place : Path) (inner : FileTree) : Prop :=
  ∀ path, tree.entries (place ++ path) = inner.entries path

variable {tree inner : FileTree} {place : Path}

theorem dropLast_append_of_ne_nil {path : Path} (hpath : path ≠ []) :
    (place ++ path).dropLast = place ++ path.dropLast :=
  List.dropLast_append_of_ne_nil hpath

theorem walk_inside (hhas : tree.HasAt place inner) (hrelative : inner.Relative)
    {follow : Path → List String → Option Path} {out : Path → List String → Bool}
    (hfollow : ∀ path parts final, out path parts = false →
      follow (place ++ path) parts = some final → place <+: final)
    {path : Path} {parts : List String} {final : Path}
    (hstays : stepsOut inner out path parts = false)
    (hfinal : walk tree follow (place ++ path) parts = some final) : place <+: final := by
  induction parts generalizing path with
  | nil =>
    rw [walk, Option.some.injEq] at hfinal
    exact hfinal ▸ List.prefix_append ..
  | cons part rest ih =>
    rw [walk] at hfinal
    rw [stepsOut] at hstays
    by_cases hhere : stays part
    · rw [if_pos hhere] at hfinal hstays
      exact ih hstays hfinal
    rw [if_neg hhere] at hfinal hstays
    by_cases hback : part = ".."
    · rw [if_pos hback] at hfinal hstays
      obtain ⟨hbelow, hrest⟩ := Bool.or_eq_false_iff.mp hstays
      have hne : path ≠ [] := by
        rintro rfl
        cases hbelow
      rw [dropLast_append_of_ne_nil hne] at hfinal
      exact ih hrest hfinal
    rw [if_neg hback] at hfinal hstays
    rw [List.append_assoc, hhas] at hfinal
    cases hentry : inner.entries (path ++ [part]) with
    | none =>
      rw [hentry] at hfinal
      cases hfinal
    | some entry =>
      rw [hentry] at hfinal hstays
      cases entry with
      | dir => exact ih hstays hfinal
      | link target =>
        dsimp only at hfinal
        rw [hrelative _ target hentry] at hfinal
        exact hfollow _ _ _ hstays hfinal
      | file | special =>
        dsimp only at hfinal
        split at hfinal
        · rw [Option.some.injEq] at hfinal
          exact hfinal ▸ List.prefix_append ..
        · cases hfinal

/-- **What does not climb stays inside.** -/
theorem resolve_inside (hhas : tree.HasAt place inner) (hrelative : inner.Relative) {limit : Nat} {path : Path}
    {parts : List String} {final : Path} (hstays : climbs inner limit path parts = false)
    (hfinal : resolve tree limit (place ++ path) parts = some final) : place <+: final := by
  induction limit generalizing path parts final with
  | zero =>
    exact walk_inside hhas hrelative (fun _ _ _ _ hnone => by cases hnone) hstays hfinal
  | succ limit ih =>
    exact walk_inside hhas hrelative (fun _ _ _ hout hfollow => ih hout hfollow) hstays hfinal

/-! ## Surroundings where everything exists -/

/-- `inner` at `place`, amid directories of every other name. -/
def FileTree.amid (inner : FileTree) (place : Path) (hplace : place ≠ []) : FileTree where
  entries path := if place <+: path then inner.entries (path.drop place.length) else some .dir
  root := if_neg fun hbegins => hplace (List.prefix_nil.mp hbegins)
  parents path name hentry := by
    by_cases hinside : place <+: path
    · obtain ⟨rest, rfl⟩ := hinside
      rw [List.append_assoc, if_pos (List.prefix_append ..), List.drop_left] at hentry
      rw [if_pos (List.prefix_append ..), List.drop_left]
      exact inner.parents rest name hentry
    · exact if_neg hinside
  links := inner.links.map (place ++ ·)
  linked path target hentry := by
    split at hentry
    next hinside =>
      obtain ⟨rest, rfl⟩ := hinside
      rw [List.drop_left] at hentry
      exact List.mem_map_of_mem (inner.linked rest target hentry)
    next => cases hentry

theorem FileTree.hasAt_amid (inner : FileTree) {place : Path} (hplace : place ≠ []) :
    (inner.amid place hplace).HasAt place inner := by
  intro path
  change (if place <+: place ++ path then _ else _) = _
  rw [if_pos (List.prefix_append ..), List.drop_left]

variable {base : Path} {name : String} {hplace : base ++ [name] ≠ []}

theorem not_prefix_step {path : Path} {part : String} (houtside : ¬ base ++ [name] <+: path)
    (hother : part ≠ name) : ¬ base ++ [name] <+: path ++ [part] := by
  intro hbegins
  rcases List.prefix_concat_iff.mp hbegins with hsame | hbelow
  · exact hother (List.append_inj_right' hsame rfl |> List.singleton_inj.mp).symm
  · exact houtside hbelow

/-- Amid directories, names other than the inner tree's own never lead into it. -/
theorem walk_outside {follow : Path → List String → Option Path} {path : Path}
    {parts : List String} (houtside : ¬ base ++ [name] <+: path) (hother : name ∉ parts) :
    ∃ final, walk (inner.amid (base ++ [name]) hplace) follow path parts = some final ∧
      ¬ base ++ [name] <+: final := by
  induction parts generalizing path with
  | nil => exact ⟨path, rfl, houtside⟩
  | cons part rest ih =>
    have hrest : name ∉ rest := fun hmem => hother (List.mem_cons_of_mem _ hmem)
    have hpart : part ≠ name := fun h => hother (h ▸ List.mem_cons_self ..)
    rw [walk]
    by_cases hhere : stays part
    · rw [if_pos hhere]
      exact ih houtside hrest
    rw [if_neg hhere]
    by_cases hback : part = ".."
    · rw [if_pos hback]
      exact ih (fun hbegins => houtside (hbegins.trans (List.dropLast_prefix path))) hrest
    rw [if_neg hback]
    have hstep := not_prefix_step houtside hpart
    have hentry : (inner.amid (base ++ [name]) hplace).entries (path ++ [part]) = some .dir :=
      if_neg hstep
    rw [hentry]
    exact ih hstep hrest

theorem walk_escapes (hrelative : inner.Relative) {follow : Path → List String → Option Path}
    {out : Path → List String → Bool}
    (hlinks : ∀ path target, inner.entries path = some (.link target) → name ∉ target.parts)
    (hfollow : ∀ path parts, name ∉ parts → out path parts = true →
      ∃ final, follow (base ++ [name] ++ path) parts = some final ∧ ¬ base ++ [name] <+: final)
    {path : Path} {parts : List String} (hother : name ∉ parts)
    (hout : stepsOut inner out path parts = true) :
    ∃ final, walk (inner.amid (base ++ [name]) hplace) follow (base ++ [name] ++ path) parts =
      some final ∧ ¬ base ++ [name] <+: final := by
  induction parts generalizing path with
  | nil => cases hout
  | cons part rest ih =>
    have hrest : name ∉ rest := fun hmem => hother (List.mem_cons_of_mem _ hmem)
    rw [walk]
    rw [stepsOut] at hout
    by_cases hhere : stays part
    · rw [if_pos hhere] at hout ⊢
      exact ih hrest hout
    rw [if_neg hhere] at hout ⊢
    by_cases hback : part = ".."
    · rw [if_pos hback] at hout ⊢
      by_cases htop : path = []
      · subst htop
        rw [List.append_nil, List.dropLast_concat]
        refine walk_outside (fun hbegins => ?_) hrest
        have hlength := hbegins.length_le
        rw [List.length_append, List.length_singleton] at hlength
        omega
      · rw [dropLast_append_of_ne_nil htop]
        refine ih hrest ((Bool.or_eq_true_iff.mp hout).resolve_left fun hempty => ?_)
        exact htop (List.isEmpty_iff.mp hempty)
    rw [if_neg hback] at hout ⊢
    rw [List.append_assoc, FileTree.hasAt_amid]
    cases hentry : inner.entries (path ++ [part]) with
    | none =>
      rw [hentry] at hout
      cases hout
    | some entry =>
      rw [hentry] at hout
      cases entry with
      | dir => exact ih hrest hout
      | link target =>
        have hparts : name ∉ target.parts ++ rest := fun hmem =>
          (List.mem_append.mp hmem).elim (hlinks _ target hentry) hrest
        dsimp only
        rw [hrelative _ target hentry]
        exact hfollow _ _ hparts hout
      | file | special => cases hout

/-- **What climbs can end outside.** -/
theorem resolve_escapes (hrelative : inner.Relative)
    (hlinks : ∀ path target, inner.entries path = some (.link target) → name ∉ target.parts)
    {limit : Nat} {path : Path} {parts : List String} (hother : name ∉ parts)
    (hclimbs : climbs inner limit path parts = true) :
    ∃ final, resolve (inner.amid (base ++ [name]) hplace) limit (base ++ [name] ++ path) parts =
      some final ∧ ¬ base ++ [name] <+: final := by
  induction limit generalizing path parts with
  | zero => exact walk_escapes hrelative hlinks (fun _ _ _ hout => by cases hout) hother hclimbs
  | succ limit ih =>
    exact walk_escapes hrelative hlinks (fun _ _ hparts hout => ih hparts hout) hother hclimbs

end Paths
