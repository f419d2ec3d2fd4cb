import Mathlib.Data.List.Nodup
import Atlantide.Components.Lock
import Atlantide.Lib.Frames
import Atlantide.Lib.Paths

/-! # The hash of a vendored tree

A component's directory is hashed and compared with its lock entry, its bytecode is deleted, and it
is mounted. The hash leaves out what the deletion takes away, and each has a rule of its own for
that. -/

namespace Atlantide.Components

open Paths Joins Frames PrefixCode

/-- What is no directory. A link leads to a directory or not when the deletion lists it. -/
inductive Leaf
  | file (bytes : List UInt8)
  | link (target : String) (leads : Bool)
  | special
  deriving DecidableEq

inductive Node
  | leaf (leaf : Leaf)
  | dir (entries : List (String × Node))

/-- What is hashed of a leaf. -/
inductive Content
  | file (bytes : List UInt8)
  | link (target : String)
  deriving DecidableEq

abbrev Record := Path × Content

def Leaf.content : Leaf → Option Content
  | .file bytes => some (.file bytes)
  | .link target _ => some (.link target)
  | .special => none

def Leaf.isDir : Leaf → Bool
  | .link _ leads => leads
  | _ => false

def endsPyc (name : String) : Bool := ".pyc".toList.isSuffixOf name.toList

mutual

/-- `os.walk`: the leaves of a node at its path. -/
def Node.leaves (rel : Path) : Node → List (Path × Leaf)
  | .leaf leaf => [(rel, leaf)]
  | .dir entries => walkLeaves rel entries

def walkLeaves (rel : Path) : List (String × Node) → List (Path × Leaf)
  | [] => []
  | (name, node) :: rest => node.leaves (rel ++ [name]) ++ walkLeaves rel rest

end

/-- What is deleted where it is listed, a directory with all that is in it. -/
def isBytecode (name : String) : Node → Bool
  | .dir _ => name = "__pycache__"
  | .leaf leaf => name = "__pycache__" || !leaf.isDir && endsPyc name

mutual

def Node.purged : Node → Node
  | .leaf leaf => .leaf leaf
  | .dir entries => .dir (purgeBytecode entries)

/-- `_purge_bytecode` -/
def purgeBytecode : List (String × Node) → List (String × Node)
  | [] => []
  | (name, node) :: rest =>
    if isBytecode name node then purgeBytecode rest
    else (name, node.purged) :: purgeBytecode rest

end

/-- `PurePath.suffix`: what follows the last dot, with it, if there is something on either side. -/
def suffix (name : String) : List Char :=
  let text := name.toList.reverse
  let after := text.takeWhile (· ≠ '.')
  match text.dropWhile (· ≠ '.') with
  | '.' :: before => if before = [] ∨ after = [] then [] else '.' :: after.reverse
  | _ => []

/-- `str.encode` -/
def encoded (text : String) : List UInt8 := text.toUTF8.data.toList

def posix (rel : Path) : List UInt8 :=
  encoded (String.ofList (['/'].intercalate (rel.map String.toList)))

/-- A directory at its place, with what a file system promises of the paths in it. -/
structure ComponentTree where
  /-- The parts of the directory's own path. -/
  place : Path
  entries : List (String × Node)
  distinct : ((walkLeaves [] entries).map Prod.fst).Nodup
  named : ∀ found ∈ walkLeaves [] entries, ∀ name ∈ found.1, '/' ∉ name.toList
  short : ∀ found ∈ walkLeaves [] entries, (posix found.1).length < 2 ^ 64 - 1

namespace ComponentTree

def leaves (tree : ComponentTree) : List (Path × Leaf) := walkLeaves [] tree.entries

/-- `_tree_files`, with what is read of each. -/
def treeFiles (tree : ComponentTree) : List Record :=
  tree.leaves.filterMap fun (rel, leaf) =>
    if "__pycache__" ∈ tree.place ++ rel ∨ suffix (rel.getLastD "") = ".pyc".toList then none
    else leaf.content.map (rel, ·)

/-- The files and links there are once the bytecode is deleted. -/
def kept (tree : ComponentTree) : List Record :=
  (walkLeaves [] (purgeBytecode tree.entries)).filterMap fun (rel, leaf) =>
    leaf.content.map (rel, ·)

end ComponentTree

/-- `_SYMLINK_TAG` -/
def symlinkTag : List UInt8 := bigEndian 8 (2 ^ 64 - 1)

def Content.bytes : Content → List UInt8
  | .file bytes => bytes
  | .link target => encoded target

/-- What the digest is updated with. -/
def recordText (record : Record) : List UInt8 :=
  (match record.2 with
    | .link _ => symlinkTag
    | .file _ => []) ++ framed 8 (posix record.1) ++ framed 8 record.2.bytes

/-- Both lengths go into eight bytes. -/
def fits (record : Record) : Bool :=
  (posix record.1).length < 2 ^ 64 && record.2.bytes.length < 2 ^ 64

def hashPrefix : String := "sha256.v2:"

/-- `None` where a length does not go into its bytes, which raises. -/
def treeHash (digest : List UInt8 → String) (tree : ComponentTree) : Option String :=
  let found := tree.treeFiles.mergeSort fun left right => (compare left.1 right.1).isLE
  if found.all fits then some (hashPrefix ++ digest (found.flatMap recordText)) else none

inductive VerifyError
  | overflow
  | outdated
  | mismatch
  deriving DecidableEq, Repr

/-- `verify` of a tree that is there. -/
def verify (digest : List UInt8 → String) (tree : ComponentTree) (entry : LockEntry) :
    Except VerifyError Unit :=
  match treeHash digest tree with
  | none => .error .overflow
  | some actual =>
    if hashPrefix.toList.isPrefixOf entry.hash.toList then
      if actual = entry.hash then .ok () else .error .mismatch
    else .error .outdated

/-! ## What is left of a tree -/

def survives (found : Path × Leaf) : Bool :=
  "__pycache__" ∉ found.1 && (found.2.isDir || !endsPyc (found.1.getLastD ""))

mutual

theorem prefix_of_mem_leaves {rel : Path} : (node : Node) → ∀ found ∈ node.leaves rel,
    rel <+: found.1
  | .leaf leaf, found, hmem => by
    rw [Node.leaves, List.mem_singleton] at hmem
    rw [hmem]
  | .dir entries, found, hmem => by
    obtain ⟨name, hbelow⟩ := prefix_of_mem_walkLeaves entries found hmem
    exact (List.prefix_append rel [name]).trans hbelow

theorem prefix_of_mem_walkLeaves {rel : Path} : (entries : List (String × Node)) →
    ∀ found ∈ walkLeaves rel entries, ∃ name, rel ++ [name] <+: found.1
  | [], found, hmem => by cases hmem
  | (name, node) :: rest, found, hmem => by
    rcases List.mem_append.mp hmem with hmem | hmem
    · exact ⟨name, prefix_of_mem_leaves node found hmem⟩
    · exact prefix_of_mem_walkLeaves rest found hmem

end

theorem filter_survives_of_mem {rel : Path} (hrel : "__pycache__" ∈ rel) (node : Node) :
    (node.leaves rel).filter survives = [] := by
  rw [List.filter_eq_nil_iff]
  intro found hmem
  have hin : "__pycache__" ∈ found.1 := (prefix_of_mem_leaves node found hmem).subset hrel
  simp [survives, hin]

mutual

theorem leaves_purged {rel : Path} (hrel : "__pycache__" ∉ rel) : (node : Node) →
    (∀ leaf, node = .leaf leaf → leaf.isDir || !endsPyc (rel.getLastD "")) →
    node.purged.leaves rel = (node.leaves rel).filter survives
  | .leaf leaf, hleaf => by
    have hkept : survives (rel, leaf) = true := by
      rw [survives, hleaf leaf rfl]
      simp [hrel]
    rw [Node.purged, Node.leaves, List.filter_singleton, hkept]
    rfl
  | .dir entries, _ => by
    rw [Node.purged, Node.leaves, Node.leaves, walkLeaves_purgeBytecode hrel entries]

theorem walkLeaves_purgeBytecode {rel : Path} (hrel : "__pycache__" ∉ rel) :
    (entries : List (String × Node)) →
    walkLeaves rel (purgeBytecode entries) = (walkLeaves rel entries).filter survives
  | [] => rfl
  | (name, node) :: rest => by
    have hlast : (rel ++ [name]).getLastD "" = name := by simp
    rw [purgeBytecode, walkLeaves, List.filter_append, ← walkLeaves_purgeBytecode hrel rest]
    by_cases hcache : name = "__pycache__"
    · have hdeleted : isBytecode name node = true := by
        cases node with
        | leaf leaf => simp [isBytecode, hcache]
        | dir entries => simp [isBytecode, hcache]
      rw [if_pos hdeleted, filter_survives_of_mem (by simp [hcache]), List.nil_append]
    · have hpath : "__pycache__" ∉ rel ++ [name] := by
        simp [hrel, Ne.symm hcache]
      cases node with
      | dir entries =>
        have hdir : ∀ leaf, Node.dir entries = .leaf leaf →
            leaf.isDir || !endsPyc ((rel ++ [name]).getLastD "") := fun leaf heq => by cases heq
        rw [if_neg (by simp [isBytecode, hcache]), walkLeaves,
          leaves_purged hpath (.dir entries) hdir]
      | leaf leaf =>
        cases hgone : !leaf.isDir && endsPyc name with
        | false =>
          have hleft : leaf.isDir || !endsPyc name := by
            rw [← Bool.not_eq_false', Bool.not_or, Bool.not_not]
            exact hgone
          rw [if_neg (by simp [isBytecode, hcache, hgone]), walkLeaves, leaves_purged hpath]
          rintro other heq
          cases heq
          rwa [hlast]
        | true =>
          have hdropped : survives (rel ++ [name], leaf) = false := by
            rw [survives, hlast, ← Bool.not_eq_true', Bool.not_and, Bool.not_or, Bool.not_not, hgone,
              Bool.or_true]
          rw [if_pos (by simp [isBytecode, hgone]), Node.leaves, List.filter_singleton, hdropped]
          rfl

end

/-! ## What is hashed -/

/-- A record as a file system can hold it, of a content whose length goes into its bytes. -/
structure Sound (record : Record) : Prop where
  below : record.1 ≠ []
  named : ∀ name ∈ record.1, '/' ∉ name.toList
  short : (posix record.1).length < 2 ^ 64 - 1
  fits : record.2.bytes.length < 256 ^ 8

theorem encoded_inj {text other : String} : encoded text = encoded other ↔ text = other := by
  rw [encoded, encoded, Array.toList_inj, ← ByteArray.ext_iff, String.toUTF8_eq_toByteArray,
    String.toUTF8_eq_toByteArray, String.toByteArray_inj]

theorem posix_inj {left right : Path} (hleft : left ≠ []) (hright : right ≠ [])
    (hnamed : ∀ name ∈ left, '/' ∉ name.toList) (hnamed' : ∀ name ∈ right, '/' ∉ name.toList)
    (hsame : posix left = posix right) : left = right := by
  have hparts (path : Path) (hpath : path ≠ []) (hplain : ∀ name ∈ path, '/' ∉ name.toList) :
      (['/'].intercalate (path.map String.toList)).splitOn '/' = path.map String.toList :=
    List.splitOn_intercalate '/' (List.forall_mem_map.mpr hplain) (by simpa using hpath)
  rw [posix, posix, encoded_inj, String.ofList_inj] at hsame
  have hsplit := congrArg (·.splitOn '/') hsame
  simp only [hparts left hleft hnamed, hparts right hright hnamed'] at hsplit
  exact List.map_injective_iff.mpr (fun _ _ heq => String.toList_inj.mp heq) hsplit

/-- A file's record does not start with the tag of links. -/
theorem framed_ne_symlinkTag {bytes rest rest' : List UInt8} (hshort : bytes.length < 2 ^ 64 - 1) :
    framed 8 bytes ++ rest ≠ symlinkTag ++ rest' := by
  intro heq
  rw [framed, symlinkTag, List.append_assoc] at heq
  have hhead := (List.append_inj heq (by rw [length_bigEndian, length_bigEndian])).1
  have hlength := bigEndian_inj (by omega) (by omega) hhead
  omega

theorem reads_recordText {record : Record} (hrecord : Sound record) :
    Reads Sound recordText anything record := by
  have hframes {rel rel' : Path} {bytes bytes' rest rest' : List UInt8}
      (hrel : (posix rel).length < 2 ^ 64 - 1) (hrel' : (posix rel').length < 2 ^ 64 - 1)
      (hbytes : bytes.length < 256 ^ 8) (hbytes' : bytes'.length < 256 ^ 8)
      (heq : framed 8 (posix rel) ++ (framed 8 bytes ++ rest) =
        framed 8 (posix rel') ++ (framed 8 bytes' ++ rest')) :
      posix rel = posix rel' ∧ bytes = bytes' ∧ rest = rest' := by
    obtain ⟨hpath, hafter⟩ := reads_framed (by omega) (posix rel') _ _ (by omega) trivial trivial heq
    exact ⟨hpath, reads_framed hbytes bytes' _ _ hbytes' trivial trivial hafter⟩
  obtain ⟨rel, content⟩ := record
  rintro ⟨rel', content'⟩ rest rest' hother - - heq
  have hpaths := posix_inj hrecord.below hother.below hrecord.named hother.named
  have hbytes := hrecord.fits
  have hbytes' := hother.fits
  have hshort := hrecord.short
  have hshort' := hother.short
  cases content with
  | file bytes =>
    cases content' with
    | file bytes' =>
      simp only [recordText, List.nil_append, List.append_assoc] at heq
      obtain ⟨hpath, hsame, hrest⟩ := hframes hshort hshort' hbytes hbytes' heq
      cases hpaths hpath
      cases hsame
      exact ⟨rfl, hrest⟩
    | link target' =>
      simp only [recordText, List.nil_append, List.append_assoc] at heq
      exact absurd heq (framed_ne_symlinkTag hshort)
  | link target =>
    cases content' with
    | file bytes' =>
      simp only [recordText, List.nil_append, List.append_assoc] at heq
      exact absurd heq.symm (framed_ne_symlinkTag hshort')
    | link target' =>
      simp only [recordText, List.append_assoc] at heq
      obtain ⟨hpath, hsame, hrest⟩ :=
        hframes hshort hshort' hbytes hbytes' (List.append_cancel_left heq)
      cases hpaths hpath
      cases encoded_inj.mp hsame
      exact ⟨rfl, hrest⟩

def counted (place : Path) (found : Path × Leaf) : Bool :=
  "__pycache__" ∉ place ++ found.1 && suffix (found.1.getLastD "") ≠ ".pyc".toList

section

variable {tree other : ComponentTree} {rel : Path} {content : Content}

theorem mem_treeFiles : (rel, content) ∈ tree.treeFiles ↔
    ∃ leaf, (rel, leaf) ∈ tree.leaves ∧ leaf.content = some content ∧
      counted tree.place (rel, leaf) := by
  unfold ComponentTree.treeFiles counted
  rw [List.mem_filterMap]
  constructor
  · rintro ⟨⟨path, leaf⟩, hmem, hfound⟩
    simp only at hfound
    split at hfound
    · cases hfound
    · rename_i hrule
      obtain ⟨found, hcontent, heq⟩ := Option.map_eq_some_iff.mp hfound
      cases heq
      exact ⟨leaf, hmem, hcontent, by simpa using hrule⟩
  · rintro ⟨leaf, hmem, hcontent, hrule⟩
    refine ⟨(rel, leaf), hmem, ?_⟩
    have hkept : ¬ ("__pycache__" ∈ tree.place ++ rel ∨
        suffix (rel.getLastD "") = ".pyc".toList) := by simpa using hrule
    simp only
    rw [if_neg hkept, hcontent]
    rfl

theorem mem_kept : (rel, content) ∈ tree.kept ↔
    ∃ leaf, (rel, leaf) ∈ tree.leaves ∧ leaf.content = some content ∧ survives (rel, leaf) := by
  unfold ComponentTree.kept ComponentTree.leaves
  rw [walkLeaves_purgeBytecode List.not_mem_nil, List.mem_filterMap]
  constructor
  · rintro ⟨⟨path, leaf⟩, hmem, hfound⟩
    obtain ⟨found, hcontent, heq⟩ := Option.map_eq_some_iff.mp hfound
    cases heq
    rw [List.mem_filter] at hmem
    exact ⟨leaf, hmem.1, hcontent, hmem.2⟩
  · rintro ⟨leaf, hmem, hcontent, hrule⟩
    exact ⟨(rel, leaf), List.mem_filter.mpr ⟨hmem, hrule⟩, by simp [hcontent]⟩

theorem leaf_unique {leaf leaf' : Leaf} (hmem : (rel, leaf) ∈ tree.leaves)
    (hmem' : (rel, leaf') ∈ tree.leaves) : leaf = leaf' :=
  (Prod.mk.inj (List.inj_on_of_nodup_map tree.distinct hmem hmem' rfl)).2

theorem sound_of_mem {record : Record} (hmem : record ∈ tree.treeFiles) (hfits : fits record) :
    Sound record := by
  obtain ⟨leaf, hleaf, -, -⟩ := mem_treeFiles.mp hmem
  obtain ⟨name, hbelow⟩ := prefix_of_mem_walkLeaves _ _ hleaf
  rw [fits, Bool.and_eq_true, decide_eq_true_eq, decide_eq_true_eq] at hfits
  refine ⟨fun hnone => ?_, tree.named _ hleaf, tree.short _ hleaf, hfits.2⟩
  rw [hnone] at hbelow
  exact absurd (List.prefix_nil.mp hbelow) (by simp)

/-- Trees of one hash have the same records. -/
theorem treeFiles_perm {digest : List UInt8 → String} (hfree : Function.Injective digest)
    {hash : String} (hhash : treeHash digest tree = some hash)
    (hhash' : treeHash digest other = some hash) : tree.treeFiles.Perm other.treeFiles := by
  unfold treeHash at hhash hhash'
  simp only at hhash hhash'
  split at hhash
  · rename_i hfits
    split at hhash'
    · rename_i hfits'
      have hdigest := (Option.some.inj hhash).trans (Option.some.inj hhash').symm
      rw [String.append_right_inj] at hdigest
      rw [List.all_eq_true] at hfits hfits'
      have hsorted := flatMap_inj (fun _ => reads_recordText) ?_
        (fun record hmem => sound_of_mem (List.mem_mergeSort.mp hmem) (hfits record hmem))
        (fun record hmem => sound_of_mem (List.mem_mergeSort.mp hmem) (hfits' record hmem))
        (hfree hdigest)
      · exact (List.mergeSort_perm _ _).symm.trans
          ((List.Perm.of_eq hsorted).trans (List.mergeSort_perm _ _))
      · rintro record -
        intro hnone
        have hlength := congrArg List.length hnone
        simp only [recordText, framed, List.length_append, length_bigEndian, List.length_nil]
          at hlength
        omega
    · cases hhash'
  · cases hhash

/-! ## What the hash does not see -/

theorem suffix_eq_iff {name : String} :
    suffix name = ".pyc".toList ↔ endsPyc name ∧ name ≠ ".pyc" := by
  have hends : endsPyc name ↔ ∃ front, name.toList = front ++ ".pyc".toList := by
    rw [endsPyc, List.isSuffixOf_iff_suffix]
    exact exists_congr fun front => eq_comm
  rw [hends, suffix]
  constructor
  · intro hsuffix
    split at hsuffix
    · rename_i before hbefore
      split at hsuffix
      · cases hsuffix
      · rename_i hsides
        rw [not_or] at hsides
        have hafter : name.toList.reverse.takeWhile (· ≠ '.') = ['c', 'y', 'p'] := by
          rw [← List.reverse_inj]
          exact (List.cons.inj hsuffix).2
        have htext : name.toList = before.reverse ++ ".pyc".toList := by
          rw [← List.reverse_inj, ← List.takeWhile_append_dropWhile (p := (· ≠ '.'))
            (l := name.toList.reverse), hafter, hbefore, List.reverse_append, List.reverse_reverse]
          rfl
        refine ⟨⟨before.reverse, htext⟩, ?_⟩
        rintro rfl
        have hlength := congrArg List.length htext
        simp at hlength
        exact hsides.1 hlength
    · cases hsuffix
  · rintro ⟨⟨front, htext⟩, hname⟩
    have hfront : front.reverse ≠ [] := by
      rw [ne_eq, List.reverse_eq_nil_iff]
      rintro rfl
      exact hname (String.toList_inj.mp htext)
    have hreverse : name.toList.reverse = 'c' :: 'y' :: 'p' :: '.' :: front.reverse := by
      rw [htext, List.reverse_append]
      rfl
    simp [hreverse, List.takeWhile, List.dropWhile, hfront]

/-- What is left of the tree and was not hashed: all of it where the tree stands below a directory
called `__pycache__`, and elsewhere a link to a directory that is called like bytecode. -/
def ComponentTree.Unseen (tree : ComponentTree) (record : Record) : Prop :=
  ∃ leaf, (record.1, leaf) ∈ tree.leaves ∧ leaf.content = some record.2 ∧
    "__pycache__" ∉ record.1 ∧
    if "__pycache__" ∈ tree.place then leaf.isDir ∨ ¬ endsPyc (record.1.getLastD "")
    else leaf.isDir ∧ endsPyc (record.1.getLastD "") ∧ record.1.getLastD "" ≠ ".pyc"

/-- A link that was hashed and is deleted: it is called `.pyc`, which is no suffix, and leads to no
directory. -/
def ComponentTree.Dropped (tree : ComponentTree) (rel : Path) (target : String) : Prop :=
  (rel, .link target false) ∈ tree.leaves ∧ "__pycache__" ∉ tree.place ++ rel ∧
    rel.getLastD "" = ".pyc"

theorem survives_iff {leaf : Leaf} : survives (rel, leaf) ↔
    "__pycache__" ∉ rel ∧ (leaf.isDir ∨ ¬ endsPyc (rel.getLastD "")) := by
  simp [survives]

theorem counted_iff {place : Path} {leaf : Leaf} : counted place (rel, leaf) ↔
    "__pycache__" ∉ place ∧ "__pycache__" ∉ rel ∧
      ¬ (endsPyc (rel.getLastD "") ∧ rel.getLastD "" ≠ ".pyc") := by
  rw [← suffix_eq_iff]
  simp [counted, and_assoc]

theorem unseen_iff : tree.Unseen (rel, content) ↔
    (rel, content) ∈ tree.kept ∧ (rel, content) ∉ tree.treeFiles := by
  have hrules (leaf : Leaf) : (survives (rel, leaf) ∧ ¬ counted tree.place (rel, leaf)) ↔
      "__pycache__" ∉ rel ∧
      if "__pycache__" ∈ tree.place then leaf.isDir ∨ ¬ endsPyc (rel.getLastD "")
      else leaf.isDir ∧ endsPyc (rel.getLastD "") ∧ rel.getLastD "" ≠ ".pyc" := by
    rw [survives_iff, counted_iff]
    split
    · tauto
    · tauto
  rw [mem_kept, mem_treeFiles]
  constructor
  · rintro ⟨leaf, hmem, hcontent, hunseen⟩
    obtain ⟨hsurvives, hcounted⟩ := (hrules leaf).mpr hunseen
    refine ⟨⟨leaf, hmem, hcontent, hsurvives⟩, ?_⟩
    rintro ⟨leaf', hmem', -, hcounted'⟩
    rw [leaf_unique hmem' hmem] at hcounted'
    exact hcounted hcounted'
  · rintro ⟨⟨leaf, hmem, hcontent, hsurvives⟩, hnot⟩
    exact ⟨leaf, hmem, hcontent, (hrules leaf).mp
      ⟨hsurvives, fun hcounted => hnot ⟨leaf, hmem, hcontent, hcounted⟩⟩⟩

theorem dropped_iff {target : String} : tree.Dropped rel target ↔
    (rel, .link target) ∈ tree.treeFiles ∧ (rel, .link target) ∉ tree.kept := by
  rw [mem_kept, mem_treeFiles]
  constructor
  · rintro ⟨hmem, hplace, hname⟩
    rw [List.mem_append, not_or] at hplace
    refine ⟨⟨_, hmem, rfl, counted_iff.mpr ⟨hplace.1, hplace.2, fun hboth => hboth.2 hname⟩⟩, ?_⟩
    rintro ⟨leaf', hmem', -, hsurvives⟩
    rw [leaf_unique hmem' hmem] at hsurvives
    rcases (survives_iff.mp hsurvives).2 with hdir | hends
    · cases hdir
    · rw [hname] at hends
      exact hends (by decide)
  · rintro ⟨⟨leaf, hmem, hcontent, hcounted⟩, hnot⟩
    obtain ⟨hplace, hrel, hname⟩ := counted_iff.mp hcounted
    have hgone : ¬ (leaf.isDir ∨ ¬ endsPyc (rel.getLastD "")) := fun hkept =>
      hnot ⟨leaf, hmem, hcontent, survives_iff.mpr ⟨hrel, hkept⟩⟩
    rw [not_or, Decidable.not_not] at hgone
    have hleaf : leaf = .link target false := by
      cases leaf with
      | file bytes => cases hcontent
      | special => cases hcontent
      | link text leads =>
        cases hcontent
        cases leads with
        | false => rfl
        | true => exact absurd rfl hgone.1
    subst hleaf
    refine ⟨hmem, ?_, ?_⟩
    · rw [List.mem_append, not_or]
      exact ⟨hplace, hrel⟩
    · by_contra hne
      exact hname ⟨hgone.2, hne⟩

theorem treeHash_of_verify {digest : List UInt8 → String} {entry : LockEntry}
    (hverify : verify digest tree entry = .ok ()) : treeHash digest tree = some entry.hash := by
  unfold verify at hverify
  split at hverify
  · cases hverify
  · rename_i actual hactual
    split at hverify
    · split at hverify
      · rename_i hsame
        rw [hactual, hsame]
      · cases hverify
    · cases hverify

/-- What is left of a tree is left of another that has what was hashed of it and what was not, and
whose own links are not deleted. -/
theorem kept_of_same (hhashed : ∀ record, record ∈ tree.treeFiles → record ∈ other.treeFiles)
    (hunseen : ∀ record, tree.Unseen record → other.Unseen record)
    (hdropped : ∀ rel target, other.Dropped rel target → tree.Dropped rel target) :
    ∀ record, record ∈ tree.kept → record ∈ other.kept := by
  rintro ⟨rel, content⟩ hkept
  by_cases hseen : (rel, content) ∈ tree.treeFiles
  · by_contra hlost
    cases content with
    | link target =>
      exact (dropped_iff.mp (hdropped rel target (dropped_iff.mpr ⟨hhashed _ hseen, hlost⟩))).2 hkept
    | file bytes =>
      have hfile {leaf : Leaf} (hcontent : leaf.content = some (.file bytes)) :
          leaf = .file bytes := by
        cases leaf with
        | file other =>
          cases hcontent
          rfl
        | link text leads => cases hcontent
        | special => cases hcontent
      obtain ⟨leaf, hmem, hcontent, hsurvives⟩ := mem_kept.mp hkept
      obtain ⟨leaf', hmem', hcontent', -⟩ := mem_treeFiles.mp (hhashed _ hseen)
      rw [hfile hcontent] at hsurvives
      exact hlost (mem_kept.mpr ⟨leaf', hmem', hcontent', by rwa [hfile hcontent']⟩)
  · exact (unseen_iff.mp (hunseen _ (unseen_iff.mpr ⟨hkept, hseen⟩))).1

/-- A tree below a directory called `__pycache__` is not hashed at all. -/
theorem treeHash_below_cache (digest : List UInt8 → String) (hplace : "__pycache__" ∈ tree.place) :
    treeHash digest tree = some (hashPrefix ++ digest []) := by
  have hnone : tree.treeFiles = [] := by
    rw [List.eq_nil_iff_forall_not_mem]
    rintro ⟨rel, content⟩ hmem
    obtain ⟨leaf, -, -, hcounted⟩ := mem_treeFiles.mp hmem
    exact (counted_iff.mp hcounted).1 hplace
  rw [treeHash, hnone, List.mergeSort_nil]
  rfl

end

namespace Vendored

def digest (bytes : List UInt8) : String := String.ofList (bytes.map fun byte => Char.ofNat byte.toNat)

theorem digest_injective : Function.Injective digest := by
  intro bytes other hsame
  refine List.map_injective_iff.mpr (fun byte byte' heq => ?_) (String.ofList_inj.mp hsame)
  have hvalue (byte : UInt8) : (Char.ofNat byte.toNat).toNat = byte.toNat := by
    have hlt := byte.toNat_lt
    have hvalid : byte.toNat.isValidChar := .inl (by omega)
    rw [Char.ofNat, dif_pos hvalid]
    rfl
  rw [← UInt8.toNat_inj, ← hvalue byte, heq, hvalue byte']

/-- A component of one module. -/
def component (place : Path) (bytes : List UInt8) : ComponentTree where
  place := place
  entries := [("main.py", .leaf (.file bytes))]
  distinct := by simp [walkLeaves, Node.leaves]
  named := by
    intro found hmem name hname
    simp only [walkLeaves, Node.leaves, List.nil_append, List.append_nil, List.mem_singleton] at hmem
    rw [hmem, List.mem_singleton] at hname
    rw [hname]
    decide
  short := by
    intro found hmem
    simp only [walkLeaves, Node.leaves, List.nil_append, List.append_nil, List.mem_singleton] at hmem
    have hshort : (posix ["main.py"]).length < 2 ^ 64 - 1 := by decide
    rwa [hmem]

def cached : Path := ["/", "srv", "__pycache__", "project", ".atlantis", "components", "net"]

def entryOf (hash : String) : LockEntry where
  git := "https://git.test/net"
  commit := "0f3a"
  hash := hash

def shared (project : String) : Path := ["/", "srv", project, ".atlantis", "components", "net"]

/-- The hash of the same component, wherever it stands. -/
def recorded : String := hashPrefix ++ digest (recordText (["main.py"], .file [1]))

theorem verify_of_files {tree : ComponentTree}
    (hfiles : tree.treeFiles = [(["main.py"], .file [1])]) :
    verify digest tree (entryOf recorded) = .ok () := by
  have hhash : treeHash digest tree = some recorded := by
    rw [treeHash, hfiles, List.mergeSort_singleton]
    rfl
  have hmarked : hashPrefix.toList.isPrefixOf recorded.toList = true := by
    rw [List.isPrefixOf_iff_prefix, recorded, String.toList_append]
    exact List.prefix_append _ _
  rw [verify, hhash]
  simp only [entryOf, hmarked, if_true]

end Vendored

end Atlantide.Components
