import Mathlib.Algebra.Order.BigOperators.Group.List
import Mathlib.Algebra.Order.Group.Nat
import Atlantide.Lib.Fallible
import Atlantide.Lib.Paths

/-! # Vendoring a component

A component's repository is cloned, checked, and copied into the project link by link. The check
resolves every link where the clone stands; the copy keeps the links' texts and stands elsewhere, so
it is a link that steps past the tree's own root that may lead out of the copy. -/

namespace Atlantide.Components

open Paths Fallible

/-- What `copytree` leaves out. -/
def ignored (name : String) : Bool :=
  name = ".git" || name = "__pycache__" || ".pyc".toList.isSuffixOf name.toList

/-- A clone where it stands on its host, with every path under it. -/
structure Clone where
  host : FileTree
  repo : Path
  paths : List Path
  listed : ∀ rel, (host.entries (repo ++ rel)).isSome ↔ rel ∈ paths

inductive FetchError
  | subdirOutside (subdir : List String)
  | subdirNotFound (subdir : List String)
  | linkOutside (rel : Path) (target : Target)
  | notRegular (rel : Path)
  deriving DecidableEq, Repr

/-! ## `os.path.realpath` -/

/-- The names taken as they are, as if no link were there. -/
def lexical : Path → List String → Path
  | path, [] => path
  | path, part :: rest =>
    if stays part then lexical path rest
    else if part = ".." then lexical path.dropLast rest
    else lexical (path ++ [part]) rest

/-- The names resolved from `path`; `expand` resolves a link's target. What does not exist is taken
as it is, and so is what follows a link that is being resolved already. -/
def joinRealpath (tree : FileTree) (expand : List Path → Path → List String → Path × Bool)
    (seen : List Path) : Path → List String → Path × Bool
  | path, [] => (path, true)
  | path, part :: rest =>
    if stays part then joinRealpath tree expand seen path rest
    else if part = ".." then joinRealpath tree expand seen path.dropLast rest
    else match tree.entries (path ++ [part]) with
      | some (.link target) =>
        if path ++ [part] ∈ seen then (lexical (path ++ [part]) rest, false)
        else
          match expand ((path ++ [part]) :: seen) (if target.absolute then [] else path)
            target.parts with
          | (resolved, true) => joinRealpath tree expand seen resolved rest
          | (resolved, false) => (lexical resolved rest, false)
      | _ => joinRealpath tree expand seen (path ++ [part]) rest

/-- Links nest no deeper than there are links, since none is resolved inside itself. -/
def realpathWithin (tree : FileTree) : Nat → List Path → Path → List String → Path × Bool
  | 0 => joinRealpath tree fun _ path parts => (lexical path parts, false)
  | depth + 1 => joinRealpath tree (realpathWithin tree depth)

def realpath (tree : FileTree) (path : Path) (parts : List String) : Path :=
  (realpathWithin tree tree.links.length [] path parts).1

/-! ## The check and the copy -/

/-- The paths under `source`, relative to it. -/
def Clone.under (clone : Clone) (source : Path) : List Path :=
  clone.paths.filterMap fun rel => source.isPrefixOf? (clone.repo ++ rel)

def checkEntry (host : FileTree) (source rel : Path) : Except FetchError Unit :=
  match host.entries (source ++ rel) with
  | some (.link target) =>
    if target.absolute || !source.isPrefixOf (realpath host source rel) then
      .error (.linkOutside rel target)
    else .ok ()
  | some .special => .error (.notRegular rel)
  | _ => .ok ()

/-- Refuses a tree with a link that is absolute or resolves outside it, or with a special file. -/
def checkTree (clone : Clone) (source : Path) : Except FetchError Unit :=
  forM ((clone.under source).filter fun rel => !rel.any ignored) (checkEntry clone.host source)

theorem isPrefixOf?_append (source path : Path) :
    source.isPrefixOf? (source ++ path) = some path := by
  induction source with
  | nil => rfl
  | cons name source ih =>
    rw [List.cons_append, List.isPrefixOf?, if_pos (beq_self_eq_true name)]
    exact ih

/-- Copies the tree at `source` with its links as they are, less what is ignored. -/
def copyTree (host : FileTree) (source : Path) (hdir : host.entries source = some .dir) :
    FileTree where
  entries rel := if rel.any ignored then none else host.entries (source ++ rel)
  root := by
    rw [List.append_nil]
    exact hdir
  parents path name hentry := by
    by_cases hignored : path.any ignored
    · rw [if_pos (by rw [List.any_append, hignored, Bool.true_or])] at hentry
      cases hentry
    · rw [if_neg hignored]
      split at hentry
      · cases hentry
      · rw [← List.append_assoc] at hentry
        exact host.parents _ name hentry
  links := host.links.filterMap source.isPrefixOf?
  linked path target hentry := by
    split at hentry
    · cases hentry
    · have hlink := host.linked _ target hentry
      exact List.mem_filterMap.mpr ⟨source ++ path, hlink, isPrefixOf?_append source path⟩

/-- Copies `subdir` of the clone, if its tree passes the check. `limit` is how many links the system
follows; where it finds a directory at all, that is the one `realpath` names. -/
def materialize (limit : Nat) (clone : Clone) (subdir : List String) : Except FetchError FileTree :=
  let source := realpath clone.host clone.repo subdir
  if clone.repo.isPrefixOf source then
    if hdir : resolve clone.host limit clone.repo subdir = some source ∧
        clone.host.entries source = some .dir then
      (checkTree clone source).map fun _ => copyTree clone.host source hdir.2
    else .error (.subdirNotFound subdir)
  else .error (.subdirOutside subdir)

theorem mem_under {clone : Clone} {source rel : Path} (hsource : clone.repo <+: source)
    (hentry : (clone.host.entries (source ++ rel)).isSome) : rel ∈ clone.under source := by
  obtain ⟨sub, rfl⟩ := hsource
  rw [List.append_assoc] at hentry
  refine List.mem_filterMap.mpr ⟨sub ++ rel, (clone.listed _).mp hentry, ?_⟩
  rw [← List.append_assoc]
  exact isPrefixOf?_append _ rel

/-- What is copied has no absolute link. -/
theorem relative_of_materialize {limit : Nat} {clone : Clone} {subdir : List String}
    {tree : FileTree} (hmaterialize : materialize limit clone subdir = .ok tree) :
    tree.Relative := by
  intro rel target hentry
  unfold materialize at hmaterialize
  dsimp only at hmaterialize
  split at hmaterialize
  next hinside =>
    split at hmaterialize
    next hdir =>
      cases hcheck : checkTree clone (realpath clone.host clone.repo subdir) with
      | error error =>
        rw [hcheck] at hmaterialize
        cases hmaterialize
      | ok value =>
        rw [hcheck] at hmaterialize
        cases hmaterialize
        change (if rel.any ignored then none else _) = _ at hentry
        split at hentry
        next => cases hentry
        next hkept =>
          have hunder := mem_under (List.isPrefixOf_iff_prefix.mp hinside)
            (by rw [hentry]; rfl : (clone.host.entries (_ ++ rel)).isSome)
          have hpassed := forM_eq_ok hcheck (List.mem_filter.mpr ⟨hunder, by simpa using hkept⟩)
          unfold checkEntry at hpassed
          rw [hentry] at hpassed
          dsimp only at hpassed
          split at hpassed
          · cases hpassed
          next hallowed =>
            rw [Bool.or_eq_true, not_or, Bool.not_eq_true] at hallowed
            exact hallowed.1
    next => cases hmaterialize
  next => cases hmaterialize

/-! ## Where the copy's links lead -/

/-- The aliases a component may have: an identifier that is not one of the package's own. -/
def validAlias (reserved : List String) (name : String) : Bool :=
  (match name.toList with
    | [] => false
    | first :: rest => first.isAlpha && rest.all fun c => c.isAlphanum || c = '_') &&
  !reserved.contains name

/-- Every link of the copy at `dest` leads inside it, or nowhere. -/
def Contained (host : FileTree) (limit : Nat) (dest : Path) (tree : FileTree) : Prop :=
  ∀ rel target, tree.entries rel = some (.link target) → ∀ final,
    resolve host limit dest rel = some final → dest <+: final

/-- There is always an alias that is none of the names. -/
theorem exists_validAlias (reserved names : List String) :
    ∃ name, validAlias reserved name = true ∧ name ∉ names := by
  have hbound : ∀ other ∈ names ++ reserved,
      other.length ≤ ((names ++ reserved).map String.length).sum :=
    fun other hmem => List.le_sum_of_mem (List.mem_map_of_mem hmem)
  set bound := ((names ++ reserved).map String.length).sum
  set name := String.ofList (List.replicate (bound + 1) 'a') with halias
  have hlength : name.length = bound + 1 := by simp [halias]
  have hnew : name ∉ names ++ reserved := fun hmem => by
    have hle := hbound _ hmem
    omega
  refine ⟨name, ?_, fun hmem => hnew (List.mem_append_left _ hmem)⟩
  have hreserved : reserved.contains name = false := by
    rw [List.contains_eq_mem]
    exact decide_eq_false fun hmem => hnew (List.mem_append_right _ hmem)
  rw [validAlias, hreserved, halias, String.toList_ofList, List.replicate_succ]
  simp only [Bool.not_false, Bool.and_true, Bool.and_eq_true, List.all_eq_true]
  refine ⟨by decide, fun c hmem => ?_⟩
  rw [List.eq_of_mem_replicate hmem]
  decide

/-- **When a copy's links stay inside it.** They do wherever the copy stands, exactly if none, resolved
within the copy alone, steps past its root. -/
theorem contained_iff {clone : Clone} {limit : Nat} {subdir : List String} {tree : FileTree}
    (hmaterialize : materialize limit clone subdir = .ok tree) (reserved : List String)
    (components : Path) (follows : Nat) :
    (∀ host name, validAlias reserved name = true → host.HasAt (components ++ [name]) tree →
      Contained host follows (components ++ [name]) tree) ↔
    ∀ rel target, tree.entries rel = some (.link target) → climbs tree follows [] rel = false := by
  have hrelative := relative_of_materialize hmaterialize
  constructor
  · intro hcontained rel target hentry
    by_contra hclimbs
    rw [Bool.not_eq_false] at hclimbs
    obtain ⟨name, hvalid, hnew⟩ := exists_validAlias reserved (rel ++ tree.linkParts)
    have hplace : components ++ [name] ≠ [] := List.append_ne_nil_of_right_ne_nil _ (by simp)
    have hparts : ∀ path target, tree.entries path = some (.link target) → name ∉ target.parts :=
      fun path target hlink hmem =>
        hnew (List.mem_append_right _ (tree.mem_linkParts hlink hmem))
    obtain ⟨final, hfinal, houtside⟩ := @resolve_escapes tree components name hplace hrelative
      hparts follows [] rel (fun hmem => hnew (List.mem_append_left _ hmem)) hclimbs
    rw [List.append_nil] at hfinal
    exact houtside (hcontained _ name hvalid (tree.hasAt_amid hplace) rel target hentry final hfinal)
  · intro hstays host name _ hhas rel target hentry final hfinal
    rw [← List.append_nil (components ++ [name])] at hfinal
    exact resolve_inside hhas hrelative (hstays rel target hentry) hfinal

/-! ## A link named after the clone's own directory -/

/-- A clone at `/tmp/repo` whose link `l` reaches `x` by the name of the clone's directory. -/
def namedClone : Clone where
  host := .ofList [([], .dir), (["tmp"], .dir), (["tmp", "repo"], .dir),
    (["tmp", "repo", "x"], .file), (["tmp", "repo", "l"], .link { parts := ["..", "repo", "x"] })]
    rfl (by decide)
  repo := ["tmp", "repo"]
  paths := [[], ["x"], ["l"]]
  listed rel := by simp [FileTree.ofList, List.lookup_isSome_iff]

/-- The project, where `l` was vendored as `web`, beside another component `repo`. -/
def project : FileTree :=
  .ofList [([], .dir), (["project"], .dir), (["project", "web"], .dir),
    (["project", "web", "x"], .file),
    (["project", "web", "l"], .link { parts := ["..", "repo", "x"] }), (["project", "repo"], .dir),
    (["project", "repo", "x"], .file)]
    rfl (by decide)

/-- The check accepts the tree, since where the clone stands the link leads into it; in the project it
leads to another component's file. -/
theorem link_escapes : ∃ tree, materialize 40 namedClone [] = .ok tree ∧
    project.HasAt ["project", "web"] tree ∧ ¬ Contained project 40 ["project", "web"] tree := by
  refine ⟨_, rfl, fun rel => ?_, fun hcontained => ?_⟩
  · by_cases hrel : rel = [] ∨ rel = ["x"] ∨ rel = ["l"]
    · rcases hrel with rfl | rfl | rfl <;> rfl
    · have hproject : project.entries (["project", "web"] ++ rel) = none := by
        rw [← Option.not_isSome_iff_eq_none]
        simpa [project, FileTree.ofList, List.lookup_isSome_iff] using hrel
      have hclone : namedClone.host.entries (namedClone.repo ++ rel) = none := by
        rw [← Option.not_isSome_iff_eq_none, namedClone.listed rel]
        simpa [namedClone] using hrel
      rw [hproject]
      change none = if rel.any ignored then none else namedClone.host.entries (namedClone.repo ++ rel)
      rw [hclone, ite_self]
  · have hinside := hcontained ["l"] _ rfl ["project", "repo", "x"] (by decide)
    exact absurd hinside (by decide)

/-- A clone at `/tmp/repo` whose link `l` reaches `x` beside it. -/
def plainClone : Clone where
  host := .ofList [([], .dir), (["tmp"], .dir), (["tmp", "repo"], .dir),
    (["tmp", "repo", "x"], .file), (["tmp", "repo", "l"], .link { parts := ["x"] })]
    rfl (by decide)
  repo := ["tmp", "repo"]
  paths := [[], ["x"], ["l"]]
  listed rel := by simp [FileTree.ofList, List.lookup_isSome_iff]

theorem contained_plain : ∃ tree, materialize 40 plainClone [] = .ok tree ∧
    ∀ host, host.HasAt ["project", "web"] tree → Contained host 40 ["project", "web"] tree := by
  refine ⟨_, rfl, fun host hhas => ?_⟩
  refine (@contained_iff plainClone 40 [] _ rfl [] ["project"] 40).mpr (fun rel target hentry => ?_)
    host "web" (by decide) hhas
  have hrel : rel ∈ plainClone.paths := by
    change (if rel.any ignored then none else plainClone.host.entries (["tmp", "repo"] ++ rel)) = _
      at hentry
    split at hentry
    · cases hentry
    · exact (plainClone.listed rel).mp (Option.isSome_iff_exists.mpr ⟨_, hentry⟩)
  have hone : rel = [] ∨ rel = ["x"] ∨ rel = ["l"] := by simpa [plainClone] using hrel
  rcases hone with rfl | rfl | rfl <;> rfl

end Atlantide.Components
