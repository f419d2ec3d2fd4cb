import Mathlib.Algebra.GroupWithZero.Nat
import Mathlib.Data.List.Sort
import Mathlib.Data.Finset.Sort
import Mathlib.Algebra.Order.BigOperators.Group.Finset
import Mathlib.Logic.Relation
import Mathlib.Tactic.ByContra

/-! # Strongly connected components by one depth-first walk

The walk numbers the nodes as it enters them and keeps those whose component is not settled on a
stack. Each node on the stack knows a number it leads back to; a node that leads back to no number
below its own is the root of a component, which is what stands above it. The walk runs on explicit
frames, each a node and the next of its successors to look at, on a fuel that counts its rounds. -/

namespace Tarjan

variable {ι : Type} [LinearOrder ι]

structure Frame (ι : Type) where
  node : ι
  nextChild : Nat

structure Walk (ι : Type) where
  indexOf : ι → Option Nat
  low : ι → Nat
  onStack : Finset ι
  /-- The stack, its top first. -/
  sccStack : List ι
  sccs : List (List ι)
  counter : Nat

namespace Walk

def new : Walk ι := ⟨fun _ => none, fun _ => 0, ∅, [], [], 0⟩

def enter (walk : Walk ι) (node : ι) : Walk ι :=
  { walk with
    indexOf := Function.update walk.indexOf node (some walk.counter)
    low := Function.update walk.low node walk.counter
    counter := walk.counter + 1
    sccStack := node :: walk.sccStack
    onStack := insert node walk.onStack }

/-- The stack down to `root`, and the stack below it. -/
def popTo (root : ι) : List ι → List ι × List ι
  | [] => ([], [])
  | top :: below =>
    if top = root then ([top], below)
    else
      let (component, rest) := popTo root below
      (top :: component, rest)

def popScc (walk : Walk ι) (root : ι) : Walk ι :=
  let (component, rest) := popTo root walk.sccStack
  { walk with
    sccStack := rest
    onStack := walk.onStack \ component.toFinset
    sccs := if 1 < component.length
      then walk.sccs ++ [component.mergeSort fun a b => decide (a ≤ b)] else walk.sccs }

/-- `low[node] = min(low[node], bound)`. -/
def lower (walk : Walk ι) (node : ι) (bound : Nat) : Walk ι :=
  { walk with low := Function.update walk.low node (min (walk.low node) bound) }

/-- The first look at a frame enters its node. -/
def begin (walk : Walk ι) : List (Frame ι) → Walk ι
  | [] => walk
  | frame :: _ => if frame.nextChild = 0 then walk.enter frame.node else walk

/-- What a round does with the frame on top once its node is entered. -/
def proceed (succs : ι → List ι) (walk : Walk ι) (frame : Frame ι) (work : List (Frame ι)) :
    Walk ι × List (Frame ι) :=
  match (succs frame.node)[frame.nextChild]? with
  | some child =>
    let work := ⟨frame.node, frame.nextChild + 1⟩ :: work
    match walk.indexOf child with
    | none => (walk, ⟨child, 0⟩ :: work)
    | some index => (if child ∈ walk.onStack then walk.lower frame.node index else walk, work)
  | none =>
    let walk :=
      if walk.indexOf frame.node = some (walk.low frame.node) then walk.popScc frame.node else walk
    match work with
    | [] => (walk, [])
    | parent :: _ => (walk.lower parent.node (walk.low frame.node), work)

/-- The rounds until no frame is left. -/
def explore (succs : ι → List ι) : Nat → Walk ι → List (Frame ι) → Option (Walk ι)
  | _, walk, [] => some walk
  | 0, _, _ :: _ => none
  | fuel + 1, walk, frame :: work =>
    let (walk, work) := (walk.begin (frame :: work)).proceed succs frame work
    explore succs fuel walk work

def visit (succs : ι → List ι) (fuel : Nat) (walk : Walk ι) (root : ι) : Option (Walk ι) :=
  if (walk.indexOf root).isSome then some walk else explore succs fuel walk [⟨root, 0⟩]

end Walk

/-- A round for each frame and each successor. -/
def rounds (succs : ι → List ι) (nodes : Finset ι) : Nat :=
  ∑ node ∈ nodes, ((succs node).length + 1)

/-- Every component of more than one node, and every node that is its own successor. -/
def findCycles (nodes : List ι) (succs : ι → List ι) : Option (List (List ι)) := do
  let walk ← nodes.foldlM (Walk.visit succs (rounds succs nodes.toFinset)) Walk.new
  return walk.sccs ++ (nodes.filter fun node => node ∈ succs node).map fun node => [node]

abbrev Leads (succs : ι → List ι) : ι → ι → Prop :=
  Relation.ReflTransGen fun source target => target ∈ succs source

/-- A strongly connected component of more than one node, its members sorted. -/
structure Component (succs : ι → List ι) (node : ι) (members : List ι) : Prop where
  sorted : members.Pairwise (· < ·)
  exact : ∀ other, other ∈ members ↔ Leads succs node other ∧ Leads succs other node
  several : 1 < members.length

theorem Component.congr {succs : ι → List ι} {node other : ι} {members : List ι}
    (hcomponent : Component succs node members) (hthere : Leads succs node other)
    (hback : Leads succs other node) : Component succs other members where
  sorted := hcomponent.sorted
  several := hcomponent.several
  exact third := by
    rw [hcomponent.exact]
    exact ⟨fun hmutual => ⟨hback.trans hmutual.1, hmutual.2.trans hthere⟩,
      fun hmutual => ⟨hthere.trans hmutual.1, hmutual.2.trans hback⟩⟩

theorem Component.unique {succs : ι → List ι} {node : ι} {members other : List ι}
    (hmembers : Component succs node members) (hother : Component succs node other) :
    members = other := by
  have hperm : members.Perm other := (List.perm_ext_iff_of_nodup
    (hmembers.sorted.imp ne_of_lt) (hother.sorted.imp ne_of_lt)).mpr fun third =>
      (hmembers.exact third).trans (hother.exact third).symm
  exact hperm.eq_of_pairwise (fun _ _ _ _ hlt hgt => absurd hlt (not_lt_of_gt hgt))
    hmembers.sorted hother.sorted

/-- There is another node in a component. -/
theorem Component.exists_ne {succs : ι → List ι} {node : ι} {members : List ι}
    (hcomponent : Component succs node members) : ∃ other ∈ members, other ≠ node := by
  obtain ⟨hsorted, _, hseveral⟩ := hcomponent
  match members, hseveral with
  | first :: second :: _, _ =>
    have hlt : first < second := (List.pairwise_cons.mp hsorted).1 second (List.mem_cons_self ..)
    by_cases hsame : first = node
    · exact ⟨second, List.mem_cons_of_mem _ (List.mem_cons_self ..), fun hback =>
        ne_of_lt hlt (hsame.trans hback.symm)⟩
    · exact ⟨first, List.mem_cons_self .., hsame⟩

namespace Walk

def num (walk : Walk ι) (node : ι) : Nat := (walk.indexOf node).getD 0

/-- A successor that has been looked at is numbered, and what stands on the stack of them is not
below what the node leads back to. -/
def Seen (walk : Walk ι) (node child : ι) : Prop :=
  (walk.indexOf child).isSome ∧ (child ∈ walk.sccStack → walk.low node ≤ walk.num child)

/-- What holds between two rounds, for the nodes of the frames from the top down. -/
structure Sound (succs : ι → List ι) (walk : Walk ι) (path : List ι) : Prop where
  numbered : ∀ node, (walk.indexOf node).isSome → walk.num node < walk.counter
  injective : ∀ node other, (walk.indexOf node).isSome → (walk.indexOf other).isSome →
    walk.num node = walk.num other → node = other
  onStack : ∀ node, node ∈ walk.onStack ↔ node ∈ walk.sccStack
  indexed : ∀ node ∈ walk.sccStack, (walk.indexOf node).isSome
  sorted : walk.sccStack.Pairwise fun above below => walk.num below < walk.num above
  path_stack : ∀ node ∈ path, node ∈ walk.sccStack
  descending : path.Pairwise fun above below => walk.num below < walk.num above
  /-- A node on the path leads to all that stand above it. -/
  leads : ∀ node ∈ path, ∀ other ∈ walk.sccStack, walk.num node ≤ walk.num other →
    Leads succs node other
  back : ∀ node ∈ walk.sccStack, ∃ other ∈ walk.sccStack, walk.num other = walk.low node ∧
    walk.num other ≤ walk.num node ∧ Leads succs node other
  /-- The last node of the path below a node leads back as far as that does. -/
  owner : ∀ node ∈ walk.sccStack, ∃ owner ∈ path, walk.num owner ≤ walk.num node ∧
    walk.low owner ≤ walk.low node ∧
    ∀ other ∈ path, walk.num other ≤ walk.num node → walk.num other ≤ walk.num owner
  finished : ∀ node ∈ walk.sccStack, node ∉ path → walk.low node < walk.num node ∧
    ∀ child ∈ succs node, walk.Seen node child
  closed : ∀ node, (walk.indexOf node).isSome → node ∉ walk.sccStack →
    ∀ child ∈ succs node, (walk.indexOf child).isSome ∧ child ∉ walk.sccStack
  sound : ∀ members ∈ walk.sccs, ∃ node, (walk.indexOf node).isSome ∧ node ∉ walk.sccStack ∧
    Component succs node members
  complete : ∀ node, (walk.indexOf node).isSome → node ∉ walk.sccStack → ∀ other ≠ node,
    Leads succs node other → Leads succs other node →
      ∃ members ∈ walk.sccs, Component succs node members
  once : walk.sccs.Nodup

section

variable {succs : ι → List ι} {walk : Walk ι} {path : List ι}

theorem indexOf_enter (node : ι) : (walk.enter node).indexOf =
    Function.update walk.indexOf node (some walk.counter) := rfl

theorem low_enter (node : ι) :
    (walk.enter node).low = Function.update walk.low node walk.counter := rfl

theorem low_lower (node : ι) (bound : Nat) : (walk.lower node bound).low =
    Function.update walk.low node (min (walk.low node) bound) := rfl

theorem num_enter_self (node : ι) : (walk.enter node).num node = walk.counter := by
  rw [num, indexOf_enter, Function.update_self, Option.getD_some]

theorem num_enter_of_ne {node other : ι} (hne : other ≠ node) :
    (walk.enter node).num other = walk.num other := by
  rw [num, indexOf_enter, Function.update_of_ne hne, num]

theorem low_enter_self (node : ι) : (walk.enter node).low node = walk.counter := by
  rw [low_enter, Function.update_self]

theorem low_enter_of_ne {node other : ι} (hne : other ≠ node) :
    (walk.enter node).low other = walk.low other := by
  rw [low_enter, Function.update_of_ne hne]

theorem isSome_indexOf_enter {node other : ι} :
    ((walk.enter node).indexOf other).isSome ↔ other = node ∨ (walk.indexOf other).isSome := by
  by_cases hsame : other = node
  · simp [enter, hsame]
  · simp [enter, hsame]

theorem Seen.enter {node child entered : ι} (hseen : walk.Seen node child) (hne : node ≠ entered)
    (hnew : walk.indexOf entered = none) : (walk.enter entered).Seen node child := by
  have hchild : child ≠ entered := by
    rintro rfl
    rw [Seen, hnew] at hseen
    cases hseen.1
  refine ⟨isSome_indexOf_enter.mpr (.inr hseen.1), fun hmem => ?_⟩
  rw [low_enter_of_ne hne, num_enter_of_ne hchild]
  exact hseen.2 ((List.mem_cons.mp hmem).resolve_left hchild)

/-- The nodes of a path below its top are numbered below it. -/
theorem Sound.num_le_head {node other : ι} (hsound : Sound succs walk (node :: path))
    (hother : other ∈ node :: path) : walk.num other ≤ walk.num node := by
  rcases List.mem_cons.mp hother with rfl | hother
  · exact Nat.le_refl _
  · exact Nat.le_of_lt ((List.pairwise_cons.mp hsound.descending).1 other hother)

/-- A node entered from the top of the path becomes its top. -/
theorem Sound.enter {child : ι} (hsound : Sound succs walk path)
    (hnew : walk.indexOf child = none) (hedge : ∀ parent ∈ path.head?, child ∈ succs parent) :
    Sound succs (walk.enter child) (child :: path) := by
  have hunnumbered : ∀ node, (walk.indexOf node).isSome → node ≠ child := by
    rintro node hnode rfl
    rw [hnew] at hnode
    cases hnode
  have hstacked : ∀ node ∈ walk.sccStack, node ≠ child := fun node hnode =>
    hunnumbered node (hsound.indexed node hnode)
  have hbelow : ∀ node ∈ walk.sccStack, walk.num node < walk.counter := fun node hnode =>
    hsound.numbered node (hsound.indexed node hnode)
  constructor
  case numbered =>
    intro node hnode
    by_cases hsame : node = child
    · rw [hsame, num_enter_self]
      exact Nat.lt_succ_self _
    · rw [num_enter_of_ne hsame]
      exact Nat.lt_succ_of_lt
        (hsound.numbered node ((isSome_indexOf_enter.mp hnode).resolve_left hsame))
  case injective =>
    intro node other hnode hother hnum
    rcases isSome_indexOf_enter.mp hnode with rfl | hold <;>
      rcases isSome_indexOf_enter.mp hother with rfl | hother
    · rfl
    · rw [num_enter_self, num_enter_of_ne (hunnumbered other hother)] at hnum
      exact absurd (hsound.numbered other hother) (by omega)
    · rw [num_enter_self, num_enter_of_ne (hunnumbered node hold)] at hnum
      exact absurd (hsound.numbered node hold) (by omega)
    · rw [num_enter_of_ne (hunnumbered node hold),
        num_enter_of_ne (hunnumbered other hother)] at hnum
      exact hsound.injective node other hold hother hnum
  case onStack =>
    intro node
    rw [Walk.enter, Finset.mem_insert, List.mem_cons, hsound.onStack]
  case indexed =>
    intro node hnode
    exact isSome_indexOf_enter.mpr ((List.mem_cons.mp hnode).imp_right (hsound.indexed node))
  case sorted =>
    refine List.pairwise_cons.mpr ⟨fun node hnode => ?_, ?_⟩
    · rw [num_enter_self, num_enter_of_ne (hstacked node hnode)]
      exact hbelow node hnode
    · refine hsound.sorted.imp_of_mem fun hfirst hsecond hlt => ?_
      rw [num_enter_of_ne (hstacked _ hfirst), num_enter_of_ne (hstacked _ hsecond)]
      exact hlt
  case path_stack =>
    intro node hnode
    exact List.mem_cons.mpr ((List.mem_cons.mp hnode).imp_right (hsound.path_stack node))
  case descending =>
    refine List.pairwise_cons.mpr ⟨fun node hnode => ?_, ?_⟩
    · have hnode := hsound.path_stack node hnode
      rw [num_enter_self, num_enter_of_ne (hstacked node hnode)]
      exact hbelow node hnode
    · refine hsound.descending.imp_of_mem fun hfirst hsecond hlt => ?_
      rw [num_enter_of_ne (hstacked _ (hsound.path_stack _ hfirst)),
        num_enter_of_ne (hstacked _ (hsound.path_stack _ hsecond))]
      exact hlt
  case leads =>
    intro node hnode other hother hle
    rcases List.mem_cons.mp hnode with rfl | hold <;>
      rcases List.mem_cons.mp hother with rfl | hother
    · exact .refl
    · rw [num_enter_self, num_enter_of_ne (hstacked other hother)] at hle
      exact absurd (hbelow other hother) (by omega)
    · cases path with
      | nil => cases hold
      | cons top path =>
        have hlead := hsound.leads node hold top (hsound.path_stack top (List.mem_cons_self ..))
          (hsound.num_le_head hold)
        exact hlead.tail (hedge top rfl)
    · rw [num_enter_of_ne (hstacked node (hsound.path_stack node hold)),
        num_enter_of_ne (hstacked other hother)] at hle
      exact hsound.leads node hold other hother hle
  case back =>
    intro node hnode
    rcases List.mem_cons.mp hnode with rfl | hnode
    · exact ⟨node, List.mem_cons_self .., by rw [num_enter_self, low_enter_self],
        Nat.le_refl _, .refl⟩
    · obtain ⟨other, hother, hlow, hle, hlead⟩ := hsound.back node hnode
      refine ⟨other, List.mem_cons_of_mem _ hother, ?_, ?_, hlead⟩
      · rw [num_enter_of_ne (hstacked other hother), low_enter_of_ne (hstacked node hnode), hlow]
      · rw [num_enter_of_ne (hstacked other hother), num_enter_of_ne (hstacked node hnode)]
        exact hle
  case owner =>
    intro node hnode
    rcases List.mem_cons.mp hnode with rfl | hold
    · exact ⟨node, List.mem_cons_self .., Nat.le_refl _, Nat.le_refl _, fun _ _ hle => hle⟩
    · obtain ⟨owner, howner, hnum, hlow, hlast⟩ := hsound.owner node hold
      have hne := hstacked owner (hsound.path_stack owner howner)
      refine ⟨owner, List.mem_cons_of_mem _ howner, ?_, ?_, ?_⟩
      · rw [num_enter_of_ne hne, num_enter_of_ne (hstacked node hold)]
        exact hnum
      · rw [low_enter_of_ne hne, low_enter_of_ne (hstacked node hold)]
        exact hlow
      · intro other hother hle
        rw [num_enter_of_ne (hstacked node hold)] at hle
        rcases List.mem_cons.mp hother with rfl | hother
        · rw [num_enter_self] at hle
          exact absurd (hbelow node hold) (by omega)
        · have hother_ne := hstacked other (hsound.path_stack other hother)
          rw [num_enter_of_ne hother_ne] at hle ⊢
          rw [num_enter_of_ne hne]
          exact hlast other hother hle
  case finished =>
    intro node hnode hpath
    rw [List.mem_cons, not_or] at hpath
    have hnode := (List.mem_cons.mp hnode).resolve_left hpath.1
    obtain ⟨hlow, hseen⟩ := hsound.finished node hnode hpath.2
    rw [low_enter_of_ne hpath.1, num_enter_of_ne hpath.1]
    exact ⟨hlow, fun other hother => (hseen other hother).enter hpath.1 hnew⟩
  case closed =>
    intro node hnode hstack other hother
    rw [Walk.enter, List.mem_cons, not_or] at hstack ⊢
    have hnode := (isSome_indexOf_enter.mp hnode).resolve_left hstack.1
    obtain ⟨hindexed, hout⟩ := hsound.closed node hnode hstack.2 other hother
    exact ⟨isSome_indexOf_enter.mpr (.inr hindexed), hunnumbered other hindexed, hout⟩
  case sound =>
    intro members hmembers
    obtain ⟨node, hnode, hstack, hcomponent⟩ := hsound.sound members hmembers
    refine ⟨node, isSome_indexOf_enter.mpr (.inr hnode), ?_, hcomponent⟩
    exact List.mem_cons.not.mpr (not_or.mpr ⟨hunnumbered node hnode, hstack⟩)
  case complete =>
    intro node hnode hstack
    have hstack := not_or.mp (List.mem_cons.not.mp hstack)
    have hnode := (isSome_indexOf_enter.mp hnode).resolve_left hstack.1
    exact hsound.complete node hnode hstack.2
  case once => exact hsound.once

theorem low_lower_le (node other : ι) (bound : Nat) :
    (walk.lower node bound).low other ≤ walk.low other := by
  by_cases hsame : other = node
  · rw [hsame, low_lower, Function.update_self]
    exact Nat.min_le_left _ _
  · rw [low_lower, Function.update_of_ne hsame]

theorem low_lower_self (node : ι) (bound : Nat) :
    (walk.lower node bound).low node = min (walk.low node) bound := by
  rw [low_lower, Function.update_self]

theorem low_lower_of_ne {node other : ι} (hne : other ≠ node) (bound : Nat) :
    (walk.lower node bound).low other = walk.low other := by
  rw [low_lower, Function.update_of_ne hne]

theorem Seen.lower {node child : ι} (hseen : walk.Seen node child) (lowered : ι) (bound : Nat) :
    (walk.lower lowered bound).Seen node child :=
  ⟨hseen.1, fun hmem => (low_lower_le lowered node bound).trans (hseen.2 hmem)⟩

/-- A node of the path leads back to whatever it is lowered to. -/
theorem Sound.lower {node target : ι} (hsound : Sound succs walk path) (hnode : node ∈ path)
    (htarget : target ∈ walk.sccStack) (hlead : Leads succs node target) :
    Sound succs (walk.lower node (walk.num target)) path := by
  have hstack := hsound.path_stack node hnode
  refine { hsound with back := ?_, owner := ?_, finished := ?_ }
  · intro other hother
    by_cases hsame : other = node
    · subst hsame
      obtain ⟨old, hold, hlow, hle, holdLead⟩ := hsound.back other hother
      rw [low_lower_self]
      rcases Nat.le_total (walk.low other) (walk.num target) with hkept | hlowered
      · exact ⟨old, hold, by rw [Nat.min_eq_left hkept]; exact hlow, hle, holdLead⟩
      · refine ⟨target, htarget, by rw [Nat.min_eq_right hlowered]; rfl, ?_, hlead⟩
        exact hlowered.trans (hlow ▸ hle)
    · rw [low_lower_of_ne hsame]
      exact hsound.back other hother
  · intro other hother
    obtain ⟨owner, howner, hnum, hlow, hlast⟩ := hsound.owner other hother
    refine ⟨owner, howner, hnum, ?_, hlast⟩
    by_cases hsame : other = node
    · subst hsame
      have hown : owner = other := hsound.injective owner other
        (hsound.indexed owner (hsound.path_stack owner howner)) (hsound.indexed other hother)
        (Nat.le_antisymm hnum (hlast other hnode (Nat.le_refl _)))
      rw [hown]
    · rw [low_lower_of_ne hsame]
      exact (low_lower_le node owner _).trans hlow
  · intro other hother hpath
    obtain ⟨hlow, hseen⟩ := hsound.finished other hother hpath
    refine ⟨(low_lower_le node other _).trans_lt hlow, fun child hchild => ?_⟩
    exact (hseen child hchild).lower node _

/-- A node that leads back below itself is left to the node before it, once that leads back as
far. -/
theorem Sound.leave {node parent : ι} (hsound : Sound succs walk (node :: parent :: path))
    (hparent : walk.low parent ≤ walk.low node) (hlow : walk.low node < walk.num node)
    (hseen : ∀ child ∈ succs node, walk.Seen node child) :
    Sound succs walk (parent :: path) := by
  obtain ⟨habove, hdescending⟩ := List.pairwise_cons.mp hsound.descending
  refine { hsound with
    path_stack := fun other hother => hsound.path_stack other (List.mem_cons_of_mem _ hother)
    descending := hdescending
    leads := fun other hother => hsound.leads other (List.mem_cons_of_mem _ hother)
    owner := ?_
    finished := ?_ }
  · intro other hother
    obtain ⟨owner, howner, hnum, howned, hlast⟩ := hsound.owner other hother
    rcases List.mem_cons.mp howner with rfl | howner
    · refine ⟨parent, List.mem_cons_self .., ?_, hparent.trans howned, fun third hthird _ => ?_⟩
      · exact (Nat.le_of_lt (habove parent (List.mem_cons_self ..))).trans hnum
      · rcases List.mem_cons.mp hthird with rfl | hthird
        · exact Nat.le_refl _
        · exact Nat.le_of_lt ((List.pairwise_cons.mp hdescending).1 third hthird)
    · exact ⟨owner, howner, hnum, howned, fun third hthird =>
        hlast third (List.mem_cons_of_mem _ hthird)⟩
  · intro other hother hpath
    by_cases hsame : other = node
    · rw [hsame]
      exact ⟨hlow, hseen⟩
    · exact hsound.finished other hother (List.mem_cons.not.mpr (not_or.mpr ⟨hsame, hpath⟩))

/-- The bottom of the path leads back to nothing below it. -/
theorem Sound.not_low_lt {node : ι} (hsound : Sound succs walk [node]) :
    ¬ walk.low node < walk.num node := by
  intro hlow
  obtain ⟨other, hother, hnum, _⟩ :=
    hsound.back node (hsound.path_stack node (List.mem_singleton_self node))
  obtain ⟨owner, howner, hle, _⟩ := hsound.owner other hother
  rw [List.mem_singleton] at howner
  subst howner
  omega

theorem Sound.low_le_num {node : ι} (hsound : Sound succs walk path)
    (hnode : node ∈ walk.sccStack) : walk.low node ≤ walk.num node := by
  obtain ⟨other, _, hlow, hle, _⟩ := hsound.back node hnode
  exact hlow ▸ hle

/-- What a settled node leads to is settled. -/
theorem Sound.settled_leads {node other : ι} (hsound : Sound succs walk path)
    (hnode : (walk.indexOf node).isSome) (hstack : node ∉ walk.sccStack)
    (hlead : Leads succs node other) :
    (walk.indexOf other).isSome ∧ other ∉ walk.sccStack := by
  induction hlead with
  | refl => exact ⟨hnode, hstack⟩
  | tail _ hedge ih => exact hsound.closed _ ih.1 ih.2 _ hedge

theorem popTo_eq {root : ι} {above below : List ι} (habove : root ∉ above) :
    popTo root (above ++ root :: below) = (above ++ [root], below) := by
  induction above with
  | nil => rw [List.nil_append, popTo, if_pos rfl, List.nil_append]
  | cons top above ih =>
    rw [List.mem_cons, not_or] at habove
    rw [List.cons_append, popTo, if_neg (Ne.symm habove.1), ih habove.2, List.cons_append]

section Settle

variable {node : ι} {above below : List ι}

/-- What stands above the node on top of the path, down to it, are the nodes not numbered below. -/
theorem Sound.num_split (hsound : Sound succs walk (node :: path))
    (hstack : walk.sccStack = above ++ node :: below) :
    (∀ other ∈ above, walk.num node < walk.num other) ∧
      ∀ other ∈ below, walk.num other < walk.num node := by
  have hsorted := hsound.sorted
  rw [hstack, List.pairwise_append, List.pairwise_cons] at hsorted
  obtain ⟨_, ⟨hbelow, _⟩, habove⟩ := hsorted
  exact ⟨fun other hother => habove other hother node (List.mem_cons_self ..), hbelow⟩

/-- What stands above a node that leads back no further than to itself is finished and leads back no
further either. -/
theorem Sound.above_finished (hsound : Sound succs walk (node :: path))
    (hstack : walk.sccStack = above ++ node :: below) (hroot : walk.low node = walk.num node)
    {other : ι} (hother : other ∈ above) : walk.num node ≤ walk.low other ∧
      walk.low other < walk.num other ∧ ∀ child ∈ succs other, walk.Seen other child := by
  have hgreater := (hsound.num_split hstack).1 other hother
  have hmem : other ∈ walk.sccStack := hstack ▸ List.mem_append_left _ hother
  have hpath : other ∉ node :: path := fun hpath => by
    have hle := hsound.num_le_head hpath
    omega
  obtain ⟨owner, howner, _, hlow, hlast⟩ := hsound.owner other hmem
  have hsame : owner = node := hsound.injective owner node
    (hsound.indexed owner (hsound.path_stack owner howner))
    (hsound.indexed node (hsound.path_stack node (List.mem_cons_self ..)))
    (Nat.le_antisymm (hsound.num_le_head howner)
      (hlast node (List.mem_cons_self ..) (Nat.le_of_lt hgreater)))
  rw [hsame, hroot] at hlow
  exact ⟨hlow, hsound.finished other hmem hpath⟩

/-- The successors of what is to be settled are settled, or to be. -/
theorem Sound.stays (hsound : Sound succs walk (node :: path))
    (hstack : walk.sccStack = above ++ node :: below) (hroot : walk.low node = walk.num node)
    (hseen : ∀ child ∈ succs node, walk.Seen node child) {source child : ι}
    (hindexed : (walk.indexOf source).isSome) (hsource : source ∉ below)
    (hedge : child ∈ succs source) : (walk.indexOf child).isSome ∧ child ∉ below := by
  obtain ⟨_, hless⟩ := hsound.num_split hstack
  have hstackOf : ∀ {other}, other ∈ below → other ∈ walk.sccStack := fun hother =>
    hstack ▸ List.mem_append_right _ (List.mem_cons_of_mem _ hother)
  have hseenStays : walk.num node ≤ walk.low source → walk.Seen source child →
      (walk.indexOf child).isSome ∧ child ∉ below := by
    refine fun hlow hseen => ⟨hseen.1, fun hbelow => ?_⟩
    have hle := hseen.2 (hstackOf hbelow)
    have hlt := hless child hbelow
    omega
  by_cases hmem : source ∈ walk.sccStack
  · rw [hstack] at hmem
    rcases List.mem_append.mp hmem with habove | hmem
    · obtain ⟨hlow, _, hchildren⟩ := hsound.above_finished hstack hroot habove
      exact hseenStays hlow (hchildren child hedge)
    · rcases List.mem_cons.mp hmem with rfl | hbelow
      · exact hseenStays (Nat.le_of_eq hroot.symm) (hseen child hedge)
      · exact absurd hbelow hsource
  · obtain ⟨hchild, hout⟩ := hsound.closed source hindexed hmem child hedge
    exact ⟨hchild, fun hbelow => hout (hstackOf hbelow)⟩

/-- **What stands above a node that leads back no further than to itself is its component.** -/
theorem Sound.component (hsound : Sound succs walk (node :: path))
    (hstack : walk.sccStack = above ++ node :: below) (hroot : walk.low node = walk.num node)
    (hseen : ∀ child ∈ succs node, walk.Seen node child) {other : ι} :
    other ∈ above ++ [node] ↔ Leads succs node other ∧ Leads succs other node := by
  have hnode := hsound.path_stack node (List.mem_cons_self ..)
  obtain ⟨hgreater, hless⟩ := hsound.num_split hstack
  constructor
  · intro hmem
    have hstacked : other ∈ walk.sccStack := by
      rw [hstack]
      rcases List.mem_append.mp hmem with habove | hself
      · exact List.mem_append_left _ habove
      · rw [List.mem_singleton.mp hself]
        exact List.mem_append_right _ (List.mem_cons_self ..)
    have hle : walk.num node ≤ walk.num other := by
      rcases List.mem_append.mp hmem with habove | hself
      · exact Nat.le_of_lt (hgreater other habove)
      · rw [List.mem_singleton.mp hself]
    refine ⟨hsound.leads node (List.mem_cons_self ..) other hstacked hle, ?_⟩
    -- Each node above leads back to a lower one that is not below the root.
    clear hstacked hle
    induction hnum : walk.num other using Nat.strong_induction_on generalizing other with
    | _ number ih =>
      rcases List.mem_append.mp hmem with habove | hself
      · obtain ⟨hlow, hlower, _⟩ := hsound.above_finished hstack hroot habove
        obtain ⟨next, hnext, hback, _, hlead⟩ :=
          hsound.back other (hstack ▸ List.mem_append_left _ habove)
        have hnextMem : next ∈ above ++ [node] := by
          rw [hstack] at hnext
          rcases List.mem_append.mp hnext with hnext | hnext
          · exact List.mem_append_left _ hnext
          · rcases List.mem_cons.mp hnext with rfl | hnext
            · exact List.mem_append_right _ (List.mem_singleton_self next)
            · have hlt := hless next hnext
              omega
        exact hlead.trans (ih (walk.num next) (by omega) hnextMem rfl)
      · rw [List.mem_singleton.mp hself]
  · rintro ⟨hthere, hback⟩
    have hstay : (walk.indexOf other).isSome ∧ other ∉ below := by
      clear hback
      induction hthere with
      | refl =>
        exact ⟨hsound.indexed node hnode, fun hmem => Nat.lt_irrefl _ (hless node hmem)⟩
      | @tail source target _ hedge ih =>
        exact hsound.stays hstack hroot hseen ih.1 ih.2 hedge
    by_contra hout
    have hsettled : other ∉ walk.sccStack := by
      rw [hstack]
      intro hmem
      rcases List.mem_append.mp hmem with habove | hmem
      · exact hout (List.mem_append_left _ habove)
      · rcases List.mem_cons.mp hmem with rfl | hbelow
        · exact hout (List.mem_append_right _ (List.mem_singleton_self _))
        · exact hstay.2 hbelow
    exact (hsound.settled_leads hstay.1 hsettled hback).2 hnode

theorem sccStack_popScc (hstack : walk.sccStack = above ++ node :: below) (hout : node ∉ above) :
    (walk.popScc node).sccStack = below := by
  rw [popScc, hstack, popTo_eq hout]

theorem sccs_popScc (hstack : walk.sccStack = above ++ node :: below) (hout : node ∉ above) :
    (walk.popScc node).sccs = if 1 < (above ++ [node]).length
      then walk.sccs ++ [(above ++ [node]).mergeSort fun a b => decide (a ≤ b)]
      else walk.sccs := by
  rw [popScc, hstack, popTo_eq hout]

theorem mem_sccs_popScc (hstack : walk.sccStack = above ++ node :: below) (hout : node ∉ above)
    {members : List ι} : members ∈ (walk.popScc node).sccs ↔ members ∈ walk.sccs ∨
      1 < (above ++ [node]).length ∧
        members = (above ++ [node]).mergeSort fun a b => decide (a ≤ b) := by
  rw [sccs_popScc hstack hout]
  split
  next hseveral => rw [List.mem_append, List.mem_singleton, and_iff_right hseveral]
  next hshort => rw [or_iff_left fun hboth => hshort hboth.1]

theorem mem_onStack_popScc (hstack : walk.sccStack = above ++ node :: below) (hout : node ∉ above)
    {other : ι} :
    other ∈ (walk.popScc node).onStack ↔ other ∈ walk.onStack ∧ other ∉ above ++ [node] := by
  rw [popScc, hstack, popTo_eq hout, Finset.mem_sdiff, List.mem_toFinset]

/-- The component above a root, as it is recorded. -/
theorem Sound.component_sorted (hsound : Sound succs walk (node :: path))
    (hstack : walk.sccStack = above ++ node :: below) (hroot : walk.low node = walk.num node)
    (hseen : ∀ child ∈ succs node, walk.Seen node child) (hseveral : 1 < (above ++ [node]).length) :
    Component succs node ((above ++ [node]).mergeSort fun a b => decide (a ≤ b)) := by
  have hnodup : (above ++ [node]).Nodup := by
    have hsorted := hsound.sorted
    rw [hstack, List.append_cons] at hsorted
    refine (List.pairwise_append.mp hsorted).1.imp fun hlt => ?_
    rintro rfl
    exact Nat.lt_irrefl _ hlt
  have hperm := List.mergeSort_perm (above ++ [node]) fun a b => decide (a ≤ b)
  have hordered := @List.pairwise_mergeSort ι (fun a b => decide (a ≤ b))
    (fun a b c hab hbc => decide_eq_true ((of_decide_eq_true hab).trans (of_decide_eq_true hbc)))
    (fun a b => by simpa using le_total a b) (above ++ [node])
  refine ⟨?_, fun other => ?_, ?_⟩
  · exact (hordered.and (hperm.nodup_iff.mpr hnodup)).imp fun hboth =>
      lt_of_le_of_ne (of_decide_eq_true hboth.1) hboth.2
  · rw [hperm.mem_iff]
    exact hsound.component hstack hroot hseen
  · rw [hperm.length_eq]
    exact hseveral

/-- A root's component is settled when its successors are looked at. -/
theorem Sound.settle (hsound : Sound succs walk (node :: path))
    (hroot : walk.low node = walk.num node) (hseen : ∀ child ∈ succs node, walk.Seen node child) :
    Sound succs (walk.popScc node) path := by
  have hnode := hsound.path_stack node (List.mem_cons_self ..)
  obtain ⟨above, below, hstack⟩ := List.append_of_mem hnode
  obtain ⟨hgreater, hless⟩ := hsound.num_split hstack
  have hout : node ∉ above := fun hmem => Nat.lt_irrefl _ (hgreater node hmem)
  have hrest := sccStack_popScc hstack hout
  obtain ⟨habovePath, hdescending⟩ := List.pairwise_cons.mp hsound.descending
  have hstackOf : ∀ {other}, other ∈ below → other ∈ walk.sccStack := fun hother =>
    hstack ▸ List.mem_append_right _ (List.mem_cons_of_mem _ hother)
  have hbelowOf : ∀ {other}, other ∈ walk.sccStack → walk.num other < walk.num node →
      other ∈ below := by
    intro other hother hlt
    rw [hstack] at hother
    rcases List.mem_append.mp hother with habove | hother
    · have hlt' := hgreater other habove
      omega
    · rcases List.mem_cons.mp hother with rfl | hbelow
      · exact absurd hlt (Nat.lt_irrefl _)
      · exact hbelow
  have hcases : ∀ {other}, other ∉ below → other ∈ walk.sccStack → other ∈ above ++ [node] := by
    intro other hbelow hother
    rw [hstack, List.append_cons, List.mem_append] at hother
    exact hother.resolve_right hbelow
  constructor
  case numbered => exact hsound.numbered
  case injective => exact hsound.injective
  case onStack =>
    intro other
    rw [mem_onStack_popScc hstack hout, hrest, hsound.onStack]
    constructor
    · rintro ⟨hother, hnot⟩
      by_contra hbelow
      exact hnot (hcases hbelow hother)
    · intro hother
      refine ⟨hstackOf hother, fun hmem => ?_⟩
      have hlt := hless other hother
      rcases List.mem_append.mp hmem with habove | hself
      · have hlt' := hgreater other habove
        omega
      · rw [List.mem_singleton.mp hself] at hlt
        exact Nat.lt_irrefl _ hlt
  case indexed =>
    rw [hrest]
    exact fun other hother => hsound.indexed other (hstackOf hother)
  case sorted =>
    rw [hrest]
    have hsorted := hsound.sorted
    rw [hstack, List.append_cons] at hsorted
    exact (List.pairwise_append.mp hsorted).2.1
  case path_stack =>
    rw [hrest]
    exact fun other hother => hbelowOf (hsound.path_stack other (List.mem_cons_of_mem _ hother))
      (habovePath other hother)
  case descending => exact hdescending
  case leads =>
    rw [hrest]
    exact fun other hother third hthird =>
      hsound.leads other (List.mem_cons_of_mem _ hother) third (hstackOf hthird)
  case back =>
    rw [hrest]
    intro other hother
    obtain ⟨target, htarget, hlow, hle, hlead⟩ := hsound.back other (hstackOf hother)
    exact ⟨target, hbelowOf htarget (Nat.lt_of_le_of_lt hle (hless other hother)), hlow, hle, hlead⟩
  case owner =>
    rw [hrest]
    intro other hother
    obtain ⟨owner, howner, hnum, hlow, hlast⟩ := hsound.owner other (hstackOf hother)
    rcases List.mem_cons.mp howner with rfl | hold
    · have hlt := hless other hother
      omega
    · exact ⟨owner, hold, hnum, hlow, fun third hthird =>
        hlast third (List.mem_cons_of_mem _ hthird)⟩
  case finished =>
    rw [hrest]
    intro other hother hpath
    have hne : other ≠ node := by
      rintro rfl
      exact Nat.lt_irrefl _ (hless other hother)
    obtain ⟨hlow, hchildren⟩ := hsound.finished other (hstackOf hother)
      (List.mem_cons.not.mpr (not_or.mpr ⟨hne, hpath⟩))
    refine ⟨hlow, fun child hchild => ⟨(hchildren child hchild).1, fun hmem => ?_⟩⟩
    rw [hrest] at hmem
    exact (hchildren child hchild).2 (hstackOf hmem)
  case closed =>
    rw [hrest]
    exact fun other hother hbelow child hedge =>
      hsound.stays hstack hroot hseen hother hbelow hedge
  case sound =>
    intro members hmembers
    rw [hrest]
    rcases (mem_sccs_popScc hstack hout).mp hmembers with hold | ⟨hseveral, rfl⟩
    · obtain ⟨other, hother, hsettled, hcomponent⟩ := hsound.sound members hold
      exact ⟨other, hother, fun hbelow => hsettled (hstackOf hbelow), hcomponent⟩
    · exact ⟨node, hsound.indexed node hnode, fun hbelow => Nat.lt_irrefl _ (hless node hbelow),
        hsound.component_sorted hstack hroot hseen hseveral⟩
  case complete =>
    rw [hrest]
    intro first hfirst hbelow second hne hthere hback
    by_cases hstacked : first ∈ walk.sccStack
    · have hmem := hcases hbelow hstacked
      obtain ⟨hnodeFirst, hfirstNode⟩ := (hsound.component hstack hroot hseen).mp hmem
      have hother : second ∈ above ++ [node] := (hsound.component hstack hroot hseen).mpr
        ⟨hnodeFirst.trans hthere, hback.trans hfirstNode⟩
      have hseveral : 1 < (above ++ [node]).length := by
        by_contra hshort
        obtain ⟨only, honly⟩ := List.length_eq_one_iff.mp
          (Nat.le_antisymm (Nat.not_lt.mp hshort) (List.length_pos_of_mem hmem))
        rw [honly, List.mem_singleton] at hmem hother
        exact hne (hother.trans hmem.symm)
      refine ⟨_, (mem_sccs_popScc hstack hout).mpr (.inr ⟨hseveral, rfl⟩), ?_⟩
      exact (hsound.component_sorted hstack hroot hseen hseveral).congr hnodeFirst hfirstNode
    · obtain ⟨members, hmembers, hcomponent⟩ :=
        hsound.complete first hfirst hstacked second hne hthere hback
      exact ⟨members, (mem_sccs_popScc hstack hout).mpr (.inl hmembers), hcomponent⟩
  case once =>
    rw [sccs_popScc hstack hout]
    split
    next hseveral =>
      rw [← List.concat_eq_append]
      refine List.Nodup.concat (fun hmem => ?_) hsound.once
      obtain ⟨other, hother, hsettled, hcomponent⟩ := hsound.sound _ hmem
      have hself : node ∈ (above ++ [node]).mergeSort fun a b => decide (a ≤ b) :=
        List.mem_mergeSort.mpr (List.mem_append_right _ (List.mem_singleton_self node))
      exact (hsound.settled_leads hother hsettled ((hcomponent.exact node).mp hself).1).2 hnode
    next => exact hsound.once

end Settle

section Rounds

/-- What holds of the frames between two rounds, the node on top entered. -/
structure Ready (succs : ι → List ι) (nodes : Finset ι) (walk : Walk ι) (work : List (Frame ι)) :
    Prop where
  sound : Sound succs walk (work.map Frame.node)
  looked : ∀ frame ∈ work, ∀ child ∈ (succs frame.node).take frame.nextChild,
    walk.Seen frame.node child
  begun : ∀ frame ∈ work.tail, 0 < frame.nextChild
  within : ∀ frame ∈ work, frame.node ∈ nodes ∧ frame.nextChild ≤ (succs frame.node).length

/-- The rounds a frame still takes. -/
def weight (succs : ι → List ι) (frame : Frame ι) : Nat :=
  (succs frame.node).length + 1 - frame.nextChild

/-- The rounds the walk still takes for `nodes`. -/
def left (succs : ι → List ι) (nodes : Finset ι) (walk : Walk ι) (work : List (Frame ι)) : Nat :=
  rounds succs (nodes.filter (walk.indexOf · = none)) + (work.map (weight succs)).sum

/-- What is numbered stays so, and only nodes of `nodes` are added. -/
structure Extends (nodes : Finset ι) (walk later : Walk ι) : Prop where
  kept : ∀ node, (walk.indexOf node).isSome → (later.indexOf node).isSome
  within : ∀ node, (later.indexOf node).isSome → (walk.indexOf node).isSome ∨ node ∈ nodes

variable {nodes : Finset ι} {frame : Frame ι} {work : List (Frame ι)}

omit [LinearOrder ι] in
theorem Extends.of_eq {later : Walk ι} (hsame : later.indexOf = walk.indexOf) :
    walk.Extends nodes later where
  kept _ hnode := hsame ▸ hnode
  within _ hnode := .inl (hsame ▸ hnode)

omit [LinearOrder ι] in
theorem Extends.trans {later last : Walk ι} (hfirst : walk.Extends nodes later)
    (hsecond : later.Extends nodes last) : walk.Extends nodes last where
  kept node hnode := hsecond.kept node (hfirst.kept node hnode)
  within node hnode := (hsecond.within node hnode).elim (hfirst.within node) .inr

theorem Extends.enter {node : ι} (hnode : node ∈ nodes) : walk.Extends nodes (walk.enter node) where
  kept _ hother := isSome_indexOf_enter.mpr (.inr hother)
  within _ hother :=
    (isSome_indexOf_enter.mp hother).elim (fun hsame => .inr (hsame ▸ hnode)) .inl

theorem begin_of_pos (hbegun : ∀ frame ∈ work.head?, 0 < frame.nextChild) :
    walk.begin work = walk := by
  cases work with
  | nil => rfl
  | cons frame work => rw [begin, if_neg (Nat.ne_of_gt (hbegun frame rfl))]

omit [LinearOrder ι] in
/-- A node's number is what it is entered with. -/
theorem num_of_indexOf {node : ι} {index : Nat} (hindex : walk.indexOf node = some index) :
    walk.num node = index := by
  rw [num, hindex, Option.getD_some]

/-- Entering a node takes its rounds from what is left for the others. -/
theorem rounds_enter {node : ι} (hnode : node ∈ nodes) (hnew : walk.indexOf node = none) :
    rounds succs (nodes.filter ((walk.enter node).indexOf · = none)) + ((succs node).length + 1) =
      rounds succs (nodes.filter (walk.indexOf · = none)) := by
  have hfilter : nodes.filter ((walk.enter node).indexOf · = none) =
      (nodes.filter (walk.indexOf · = none)).erase node := by
    ext other
    rw [Finset.mem_erase, Finset.mem_filter, Finset.mem_filter, indexOf_enter]
    by_cases hsame : other = node
    · rw [hsame, Function.update_self]
      exact iff_of_false (fun hmem => nomatch hmem.2) (fun hmem => hmem.1 rfl)
    · rw [Function.update_of_ne hsame]
      exact ⟨fun hmem => ⟨hsame, hmem⟩, And.right⟩
  rw [rounds, hfilter, rounds]
  exact Finset.sum_erase_add _ _ (Finset.mem_filter.mpr ⟨hnode, hnew⟩)

theorem Seen.popScc {node child root : ι} {above below : List ι} (hseen : walk.Seen node child)
    (hstack : walk.sccStack = above ++ root :: below) (hout : root ∉ above) :
    (walk.popScc root).Seen node child := by
  refine ⟨hseen.1, fun hmem => ?_⟩
  rw [sccStack_popScc hstack hout] at hmem
  exact hseen.2 (hstack ▸ List.mem_append_right _ (List.mem_cons_of_mem _ hmem))

/-- A successor that is not numbered is entered next. -/
theorem Ready.push (hready : Ready succs nodes walk (frame :: work)) {child : ι}
    (hchild : (succs frame.node)[frame.nextChild]? = some child) (hmem : child ∈ nodes)
    (hnew : walk.indexOf child = none) :
    Ready succs nodes (walk.enter child)
        (⟨child, 0⟩ :: ⟨frame.node, frame.nextChild + 1⟩ :: work) ∧
      left succs nodes (walk.enter child)
        (⟨child, 0⟩ :: ⟨frame.node, frame.nextChild + 1⟩ :: work) + 1 =
          left succs nodes walk (frame :: work) := by
  obtain ⟨hlt, _⟩ := List.getElem?_eq_some_iff.mp hchild
  have hedge : child ∈ succs frame.node := List.mem_of_getElem? hchild
  have hsound : Sound succs (walk.enter child) (child :: frame.node :: work.map Frame.node) := by
    refine hready.sound.enter hnew fun parent hparent => ?_
    cases hparent
    exact hedge
  have hne : ∀ other ∈ frame :: work, other.node ≠ child := by
    intro other hother hsame
    have hindexed := hready.sound.indexed other.node
      (hready.sound.path_stack other.node (List.mem_map_of_mem hother))
    rw [hsame, hnew] at hindexed
    cases hindexed
  have hold : ∀ other ∈ frame :: work, ∀ next ∈ (succs other.node).take other.nextChild,
      (walk.enter child).Seen other.node next := fun other hother next hnext =>
    (hready.looked other hother next hnext).enter (hne other hother) hnew
  have hstack := hready.sound.path_stack frame.node (List.mem_cons_self ..)
  refine ⟨⟨hsound, ?_, ?_, ?_⟩, ?_⟩
  · intro other hother next hnext
    rcases List.mem_cons.mp hother with rfl | hother
    · cases hnext
    · rcases List.mem_cons.mp hother with rfl | hother
      · rw [List.take_add_one, hchild, Option.toList_some, List.mem_append,
          List.mem_singleton] at hnext
        rcases hnext with hnext | rfl
        · exact hold frame (List.mem_cons_self ..) next hnext
        · refine ⟨isSome_indexOf_enter.mpr (.inl rfl), fun _ => ?_⟩
          rw [low_enter_of_ne (hne frame (List.mem_cons_self ..)), num_enter_self]
          have hle := hready.sound.low_le_num hstack
          have hcounter := hready.sound.numbered frame.node (hready.sound.indexed _ hstack)
          show walk.low frame.node ≤ walk.counter
          omega
      · exact hold other (List.mem_cons_of_mem _ hother) next hnext
  · intro other hother
    rcases List.mem_cons.mp hother with rfl | hother
    · exact Nat.succ_pos _
    · exact hready.begun other hother
  · intro other hother
    rcases List.mem_cons.mp hother with rfl | hother
    · exact ⟨hmem, Nat.zero_le _⟩
    · rcases List.mem_cons.mp hother with rfl | hother
      · exact ⟨(hready.within frame (List.mem_cons_self ..)).1, hlt⟩
      · exact hready.within other (List.mem_cons_of_mem _ hother)
  · have hrounds := @rounds_enter _ _ succs _ _ _ hmem hnew
    unfold left
    simp only [List.map_cons, List.sum_cons, weight]
    omega

/-- A successor that is numbered is passed over once it is seen. -/
theorem Ready.pass {next : Walk ι} (hready : Ready succs nodes walk (frame :: work)) {child : ι}
    (hchild : (succs frame.node)[frame.nextChild]? = some child)
    (hsound : Sound succs next (frame.node :: work.map Frame.node))
    (hkept : ∀ node other, walk.Seen node other → next.Seen node other)
    (hseen : next.Seen frame.node child) (hindex : next.indexOf = walk.indexOf) :
    Ready succs nodes next (⟨frame.node, frame.nextChild + 1⟩ :: work) ∧
      left succs nodes next (⟨frame.node, frame.nextChild + 1⟩ :: work) + 1 =
        left succs nodes walk (frame :: work) := by
  obtain ⟨hlt, _⟩ := List.getElem?_eq_some_iff.mp hchild
  refine ⟨⟨hsound, ?_, hready.begun, ?_⟩, ?_⟩
  · intro other hother looked hlooked
    rcases List.mem_cons.mp hother with rfl | hother
    · rw [List.take_add_one, hchild, Option.toList_some, List.mem_append,
        List.mem_singleton] at hlooked
      rcases hlooked with hlooked | rfl
      · exact hkept _ _ (hready.looked frame (List.mem_cons_self ..) looked hlooked)
      · exact hseen
    · exact hkept _ _ (hready.looked other (List.mem_cons_of_mem _ hother) looked hlooked)
  · intro other hother
    rcases List.mem_cons.mp hother with rfl | hother
    · exact ⟨(hready.within frame (List.mem_cons_self ..)).1, hlt⟩
    · exact hready.within other (List.mem_cons_of_mem _ hother)
  · unfold left
    rw [hindex]
    simp only [List.map_cons, List.sum_cons, weight]
    omega

theorem Ready.look (hready : Ready succs nodes walk (frame :: work)) {child : ι} {index : Nat}
    (hchild : (succs frame.node)[frame.nextChild]? = some child)
    (hindex : walk.indexOf child = some index) :
    Ready succs nodes (if child ∈ walk.onStack then walk.lower frame.node index else walk)
        (⟨frame.node, frame.nextChild + 1⟩ :: work) ∧
      left succs nodes (if child ∈ walk.onStack then walk.lower frame.node index else walk)
        (⟨frame.node, frame.nextChild + 1⟩ :: work) + 1 =
          left succs nodes walk (frame :: work) := by
  have hindexed : (walk.indexOf child).isSome := Option.isSome_of_eq_some hindex
  split
  next hstack =>
    rw [hready.sound.onStack] at hstack
    rw [← num_of_indexOf hindex]
    refine hready.pass hchild ?_ (fun _ _ hseen => hseen.lower _ _) ⟨hindexed, fun _ => ?_⟩ rfl
    · exact hready.sound.lower (List.mem_cons_self ..) hstack
        (.single (List.mem_of_getElem? hchild))
    · rw [low_lower_self]
      exact Nat.min_le_right _ _
  next hstack =>
    rw [hready.sound.onStack] at hstack
    exact hready.pass hchild hready.sound (fun _ _ hseen => hseen)
      ⟨hindexed, fun hmem => absurd hmem hstack⟩ rfl

/-- What is left of the frames when the one on top is done. -/
theorem Ready.drop {next : Walk ι} (hready : Ready succs nodes walk (frame :: work))
    (hsound : Sound succs next (work.map Frame.node))
    (hkept : ∀ node other, walk.Seen node other → next.Seen node other)
    (hindex : next.indexOf = walk.indexOf) :
    Ready succs nodes next work ∧
      left succs nodes next work + 1 ≤ left succs nodes walk (frame :: work) := by
  refine ⟨⟨hsound, fun other hother looked hlooked => hkept _ _
    (hready.looked other (List.mem_cons_of_mem _ hother) looked hlooked),
    fun other hother => hready.begun other (List.mem_of_mem_tail hother),
    fun other hother => hready.within other (List.mem_cons_of_mem _ hother)⟩, ?_⟩
  have hle := (hready.within frame (List.mem_cons_self ..)).2
  unfold left
  rw [hindex]
  simp only [List.map_cons, List.sum_cons, weight]
  omega

/-- Lowering a node to what it is not above changes nothing. -/
theorem lower_of_le {node : ι} {bound : Nat} (hle : walk.low node ≤ bound) :
    walk.lower node bound = walk := by
  rw [lower, Nat.min_eq_left hle, Function.update_eq_self]

/-- A node whose successors are all looked at is settled if it is a root. -/
theorem Ready.close_root (hready : Ready succs nodes walk (frame :: work))
    (hseen : ∀ child ∈ succs frame.node, walk.Seen frame.node child)
    (hroot : walk.low frame.node = walk.num frame.node) :
    Ready succs nodes (walk.popScc frame.node) work ∧
      left succs nodes (walk.popScc frame.node) work + 1 ≤
        left succs nodes walk (frame :: work) := by
  have hstacked := hready.sound.path_stack frame.node (List.mem_cons_self ..)
  obtain ⟨above, below, hstack⟩ := List.append_of_mem hstacked
  have hout : frame.node ∉ above := fun hmem =>
    Nat.lt_irrefl _ ((hready.sound.num_split hstack).1 frame.node hmem)
  exact hready.drop (hready.sound.settle hroot hseen) (fun _ _ hold => hold.popScc hstack hout) rfl

/-- Otherwise the node before it leads back as far. -/
theorem Ready.close_inner {parent : Frame ι}
    (hready : Ready succs nodes walk (frame :: parent :: work))
    (hseen : ∀ child ∈ succs frame.node, walk.Seen frame.node child)
    (hlow : walk.low frame.node < walk.num frame.node) :
    Ready succs nodes (walk.lower parent.node (walk.low frame.node)) (parent :: work) ∧
      left succs nodes (walk.lower parent.node (walk.low frame.node)) (parent :: work) + 1 ≤
        left succs nodes walk (frame :: parent :: work) := by
  have hsound : Sound succs walk (frame.node :: parent.node :: work.map Frame.node) := hready.sound
  have hframe := hsound.path_stack frame.node (List.mem_cons_self ..)
  have hparent : parent.node ∈ frame.node :: parent.node :: work.map Frame.node :=
    List.mem_cons_of_mem _ (List.mem_cons_self ..)
  have hbelow : walk.num parent.node < walk.num frame.node :=
    (List.pairwise_cons.mp hsound.descending).1 parent.node (List.mem_cons_self ..)
  obtain ⟨target, htarget, hback, _, hlead⟩ := hsound.back frame.node hframe
  have hlowered := hsound.lower hparent htarget
    ((hsound.leads parent.node hparent frame.node hframe (Nat.le_of_lt hbelow)).trans hlead)
  rw [hback] at hlowered
  have hne : frame.node ≠ parent.node := by
    intro hsame
    rw [hsame] at hbelow
    exact Nat.lt_irrefl _ hbelow
  refine hready.drop (hlowered.leave ?_ ?_ fun child hchild => (hseen child hchild).lower _ _)
    (fun _ _ hold => hold.lower _ _) rfl
  · rw [low_lower_self, low_lower_of_ne hne]
    exact Nat.min_le_right _ _
  · rw [low_lower_of_ne hne]
    exact hlow

/-- **A round keeps the walk ready and is counted.** -/
theorem Ready.proceed (hready : Ready succs nodes walk (frame :: work))
    (hknown : ∀ node ∈ nodes, ∀ child ∈ succs node, child ∈ nodes) {next : Walk ι}
    {rest : List (Frame ι)} (hnext : walk.proceed succs frame work = (next, rest)) :
    Ready succs nodes (next.begin rest) rest ∧
      left succs nodes (next.begin rest) rest + 1 ≤ left succs nodes walk (frame :: work) ∧
      walk.Extends nodes (next.begin rest) := by
  unfold Walk.proceed at hnext
  cases hchild : (succs frame.node)[frame.nextChild]? with
  | some child =>
    rw [hchild] at hnext
    cases hindex : walk.indexOf child with
    | none =>
      simp only [hindex] at hnext
      cases hnext
      have hmem := hknown frame.node (hready.within frame (List.mem_cons_self ..)).1 child
        (List.mem_of_getElem? hchild)
      obtain ⟨hpushed, hleft⟩ := hready.push hchild hmem hindex
      exact ⟨hpushed, Nat.le_of_eq hleft, .enter hmem⟩
    | some index =>
      simp only [hindex] at hnext
      cases hnext
      obtain ⟨hlooked, hleft⟩ := hready.look hchild hindex
      rw [begin_of_pos fun other hother => by cases hother; exact Nat.succ_pos _]
      refine ⟨hlooked, Nat.le_of_eq hleft, ?_⟩
      split <;> exact .of_eq rfl
  | none =>
    have hseen : ∀ child ∈ succs frame.node, walk.Seen frame.node child := by
      intro child hmem
      apply hready.looked frame (List.mem_cons_self ..)
      rw [List.take_of_length_le (List.getElem?_eq_none_iff.mp hchild)]
      exact hmem
    have hstacked := hready.sound.path_stack frame.node (List.mem_cons_self ..)
    obtain ⟨index, hindex⟩ := Option.isSome_iff_exists.mp (hready.sound.indexed _ hstacked)
    have hnum := num_of_indexOf hindex
    by_cases hsome : walk.indexOf frame.node = some (walk.low frame.node)
    · simp only [hchild, if_pos hsome] at hnext
      have hroot : walk.low frame.node = walk.num frame.node := by
        rw [hindex] at hsome
        rw [hnum, Option.some.inj hsome]
      obtain ⟨hclosed, hleft⟩ := hready.close_root hseen hroot
      cases work with
      | nil =>
        cases hnext
        exact ⟨hclosed, hleft, .of_eq rfl⟩
      | cons parent work =>
        have hparent : (walk.popScc frame.node).low parent.node ≤
            (walk.popScc frame.node).low frame.node := by
          have hle := hready.sound.low_le_num (hready.sound.path_stack parent.node
            (List.mem_cons_of_mem _ (List.mem_cons_self ..)))
          have hlt := (List.pairwise_cons.mp hready.sound.descending).1 parent.node
            (List.mem_cons_self ..)
          show walk.low parent.node ≤ walk.low frame.node
          omega
        simp only [lower_of_le hparent] at hnext
        cases hnext
        rw [begin_of_pos fun other hother => by
          cases hother
          exact hready.begun parent (List.mem_cons_self ..)]
        exact ⟨hclosed, hleft, .of_eq rfl⟩
    · simp only [hchild, if_neg hsome] at hnext
      have hlow : walk.low frame.node < walk.num frame.node := by
        refine lt_of_le_of_ne (hready.sound.low_le_num hstacked) fun hroot => hsome ?_
        rw [hindex, hroot, hnum]
      cases work with
      | nil => exact absurd hlow hready.sound.not_low_lt
      | cons parent work =>
        cases hnext
        obtain ⟨hclosed, hleft⟩ := hready.close_inner hseen hlow
        rw [begin_of_pos fun other hother => by
          cases hother
          exact hready.begun parent (List.mem_cons_self ..)]
        exact ⟨hclosed, hleft, .of_eq rfl⟩

/-- The rounds end, on fuel for what is left. -/
theorem Ready.explore (hknown : ∀ node ∈ nodes, ∀ child ∈ succs node, child ∈ nodes) {fuel : Nat}
    (hready : Ready succs nodes (walk.begin work) work)
    (hfuel : left succs nodes (walk.begin work) work ≤ fuel) :
    ∃ done, Walk.explore succs fuel walk work = some done ∧ Sound succs done [] ∧
      (walk.begin work).Extends nodes done := by
  induction fuel generalizing walk work with
  | zero =>
    cases work with
    | nil => exact ⟨walk, rfl, hready.sound, .of_eq rfl⟩
    | cons frame work =>
      obtain ⟨_, hleft, _⟩ := hready.proceed hknown rfl
      omega
  | succ fuel ih =>
    cases work with
    | nil => exact ⟨walk, rfl, hready.sound, .of_eq rfl⟩
    | cons frame work =>
      obtain ⟨hnext, hleft, hextends⟩ := hready.proceed hknown rfl
      obtain ⟨done, hdone, hsound, hlater⟩ := ih hnext (by omega)
      exact ⟨done, hdone, hsound, hextends.trans hlater⟩

/-- **A visit ends with nothing on the stack and its root numbered.** -/
theorem Sound.visit (hknown : ∀ node ∈ nodes, ∀ child ∈ succs node, child ∈ nodes)
    (hsound : Sound succs walk []) {root : ι} (hroot : root ∈ nodes) :
    ∃ done, Walk.visit succs (rounds succs nodes) walk root = some done ∧ Sound succs done [] ∧
      (done.indexOf root).isSome ∧ walk.Extends nodes done := by
  unfold Walk.visit
  split
  next hsome => exact ⟨walk, rfl, hsound, hsome, .of_eq rfl⟩
  next hnone =>
    have hnew : walk.indexOf root = none := Option.not_isSome_iff_eq_none.mp hnone
    have hready : Ready succs nodes (walk.begin [⟨root, 0⟩]) [⟨root, 0⟩] := by
      refine ⟨hsound.enter hnew (fun _ hparent => nomatch hparent), ?_, List.forall_mem_nil _, ?_⟩
      · intro frame hframe child hchild
        rw [List.mem_singleton] at hframe
        subst hframe
        cases hchild
      · intro frame hframe
        rw [List.mem_singleton] at hframe
        subst hframe
        exact ⟨hroot, Nat.zero_le _⟩
    have hleft : left succs nodes (walk.begin [⟨root, 0⟩]) [⟨root, 0⟩] ≤ rounds succs nodes := by
      rw [begin, if_pos rfl]
      have hrounds := @rounds_enter _ _ succs _ _ _ hroot hnew
      have hsub : rounds succs (nodes.filter (walk.indexOf · = none)) ≤ rounds succs nodes :=
        Finset.sum_le_sum_of_subset (Finset.filter_subset _ _)
      simp only [left, weight, List.map_cons, List.map_nil, List.sum_cons, List.sum_nil]
      omega
    obtain ⟨done, hdone, hended, hextends⟩ := Ready.explore hknown hready hleft
    rw [begin, if_pos rfl] at hextends
    refine ⟨done, hdone, hended, ?_, (Extends.enter hroot).trans hextends⟩
    exact hextends.kept root (isSome_indexOf_enter.mpr (.inl rfl))

theorem Sound.new : Sound succs (new : Walk ι) [] where
  numbered _ hnode := nomatch hnode
  injective _ _ hnode := nomatch hnode
  onStack _ := iff_of_false (Finset.notMem_empty _) List.not_mem_nil
  indexed := List.forall_mem_nil _
  sorted := .nil
  path_stack := List.forall_mem_nil _
  descending := .nil
  leads := List.forall_mem_nil _
  back := List.forall_mem_nil _
  owner := List.forall_mem_nil _
  finished := List.forall_mem_nil _
  closed _ hnode := nomatch hnode
  sound := List.forall_mem_nil _
  complete _ hnode := nomatch hnode
  once := List.nodup_nil

/-- All the visits end, with every root numbered. -/
theorem Sound.visits (hknown : ∀ node ∈ nodes, ∀ child ∈ succs node, child ∈ nodes)
    (hsound : Sound succs walk []) {roots : List ι} (hroots : ∀ root ∈ roots, root ∈ nodes) :
    ∃ done, roots.foldlM (Walk.visit succs (rounds succs nodes)) walk = some done ∧
      Sound succs done [] ∧ (∀ root ∈ roots, (done.indexOf root).isSome) ∧
      walk.Extends nodes done := by
  induction roots generalizing walk with
  | nil => exact ⟨walk, rfl, hsound, List.forall_mem_nil _, .of_eq rfl⟩
  | cons root roots ih =>
    rw [List.forall_mem_cons] at hroots
    obtain ⟨next, hvisit, hnext, hindexed, hextends⟩ := hsound.visit hknown hroots.1
    obtain ⟨done, hdone, hended, hall, hlater⟩ := ih hnext hroots.2
    refine ⟨done, ?_, hended, ?_, hextends.trans hlater⟩
    · rw [List.foldlM_cons, hvisit]
      exact hdone
    · exact List.forall_mem_cons.mpr ⟨hlater.kept root hindexed, hall⟩

end Rounds

end

end Walk

/-- **What is found is exactly the components of more than one node and the nodes that are their own
successors**, each once when the nodes are listed once. -/
theorem findCycles_exact {succs : ι → List ι} {nodes : List ι}
    (hknown : ∀ node ∈ nodes, ∀ child ∈ succs node, child ∈ nodes) :
    ∃ cycles, findCycles nodes succs = some cycles ∧
      (∀ members, members ∈ cycles ↔ (∃ node ∈ nodes, Component succs node members) ∨
        ∃ node ∈ nodes, node ∈ succs node ∧ members = [node]) ∧
      (∀ node ∈ nodes, ∀ other ≠ node, Leads succs node other → Leads succs other node →
        ∃ members ∈ cycles, Component succs node members) ∧
      (nodes.Nodup → cycles.Nodup) := by
  have hroots : ∀ root ∈ nodes, root ∈ nodes.toFinset := fun root hroot =>
    List.mem_toFinset.mpr hroot
  have hknownSet : ∀ node ∈ nodes.toFinset, ∀ child ∈ succs node, child ∈ nodes.toFinset :=
    fun node hnode child hchild =>
      List.mem_toFinset.mpr (hknown node (List.mem_toFinset.mp hnode) child hchild)
  obtain ⟨done, hdone, hsound, hall, hextends⟩ := Walk.Sound.new.visits hknownSet hroots
  have hloops : ∀ members, members ∈ (nodes.filter fun node => node ∈ succs node).map
      (fun node => [node]) ↔ ∃ node ∈ nodes, node ∈ succs node ∧ members = [node] := by
    intro members
    simp only [List.mem_map, List.mem_filter, decide_eq_true_eq, and_assoc]
    exact exists_congr fun _ => and_congr_right fun _ => and_congr_right fun _ => eq_comm
  have hempty : ∀ node, node ∉ done.sccStack := fun node hnode => by
    obtain ⟨owner, howner, _⟩ := hsound.owner node hnode
    cases howner
  have hcomplete : ∀ node ∈ nodes, ∀ other ≠ node, Leads succs node other →
      Leads succs other node → ∃ members ∈ done.sccs, Component succs node members :=
    fun node hnode => hsound.complete node (hall node hnode) (hempty node)
  refine ⟨_, by rw [findCycles, hdone]; rfl, fun members => ?_, ?_, fun hnodup => ?_⟩
  · rw [List.mem_append, hloops]
    apply or_congr_left
    constructor
    · intro hmembers
      obtain ⟨node, hnode, _, hcomponent⟩ := hsound.sound members hmembers
      rcases hextends.within node hnode with hnone | hnode
      · cases hnone
      · exact ⟨node, List.mem_toFinset.mp hnode, hcomponent⟩
    · rintro ⟨node, hnode, hcomponent⟩
      obtain ⟨other, hother, hne⟩ := hcomponent.exists_ne
      obtain ⟨hthere, hback⟩ := (hcomponent.exact other).mp hother
      obtain ⟨found, hfound, hsame⟩ := hcomplete node hnode other hne hthere hback
      exact hcomponent.unique hsame ▸ hfound
  · intro node hnode other hne hthere hback
    obtain ⟨members, hmembers, hcomponent⟩ := hcomplete node hnode other hne hthere hback
    exact ⟨members, List.mem_append_left _ hmembers, hcomponent⟩
  · refine List.nodup_append.mpr ⟨hsound.once, ?_, ?_⟩
    · exact (hnodup.filter _).map fun first second hsame => List.singleton_injective hsame
    · rintro members hmembers _ hloop rfl
      obtain ⟨node, _, _, rfl⟩ := (hloops members).mp hloop
      obtain ⟨_, _, _, hcomponent⟩ := hsound.sound [node] hmembers
      exact Nat.lt_irrefl _ hcomponent.several

end Tarjan
